/-!
# Numeric literals

A numeral is an optional sign, then hexadecimal digits behind `0x` or a decimal with an optional
fraction and exponent, then at most one of the letters for a long, float or double. It keeps its
spelling. A ratio is two numerals with a slash between them inside one pair of parentheses, the
form in which constants without a finite decimal are written.

Every reader here is a *cut*: it gives the piece that it takes and the text that follows, and the
two together are the text it was given.
-/

namespace ApiSurface.Numeral

/-! ## Cuts -/

/-- Takes a piece off the front of a text: the piece, and the text behind it. -/
abbrev Cut := List Char → List Char × List Char

/-- A cut loses nothing. -/
def Cut.Exact (f : Cut) : Prop := ∀ cs, (f cs).1 ++ (f cs).2 = cs

/-- Takes the longest run of characters that satisfy `p`. -/
def run (p : Char → Bool) : Cut := fun cs => (cs.takeWhile p, cs.dropWhile p)

/-- Takes one character that satisfies `p`, if it comes first. -/
def single (p : Char → Bool) : Cut
  | [] => ([], [])
  | c :: rest => if p c then ([c], rest) else ([], c :: rest)

/-- One cut after the other. -/
def Cut.andThen (f g : Cut) : Cut := fun cs =>
  ((f cs).1 ++ (g (f cs).2).1, (g (f cs).2).2)

/-- A run of characters and what is left behind it are what was there. -/
theorem run_exact (p : Char → Bool) : (run p).Exact := fun _ => List.takeWhile_append_dropWhile

/-- One character, if it is taken, and what is left are what was there. -/
theorem single_exact (p : Char → Bool) : (single p).Exact := by
  intro cs
  unfold single
  split
  · rfl
  · split <;> rfl

/-- Two cuts, one behind the other, lose nothing if neither does. -/
theorem Cut.Exact.andThen {f g : Cut} (hf : f.Exact) (hg : g.Exact) : (f.andThen g).Exact := by
  intro cs
  simp only [Cut.andThen, List.append_assoc]
  rw [hg, hf]

/-! ## The parts of a numeral -/

/-- The signs. -/
def isSign (c : Char) : Bool := c == '+' || c == '-'

/-- A decimal digit, or the underscore that groups digits. -/
def isGroupedDigit (c : Char) : Bool := c.isDigit || c == '_'

/-- A hexadecimal digit in either case. -/
def isHexDigit (c : Char) : Bool :=
  c.isDigit || ('a' ≤ c && c ≤ 'f') || ('A' ≤ c && c ≤ 'F')

/-- A hexadecimal digit, or the underscore that groups digits. -/
def isGroupedHexDigit (c : Char) : Bool := isHexDigit c || c == '_'

/-- The letters that may close a numeral. -/
def isSuffix (c : Char) : Bool :=
  c == 'L' || c == 'l' || c == 'F' || c == 'f' || c == 'D' || c == 'd'

/-- A point and the digits behind it. Of two points in a row the first is no part of a numeral. -/
def fraction : Cut
  | '.' :: rest =>
    if rest.head? = some '.' then ([], '.' :: rest)
    else ('.' :: (run isGroupedDigit rest).1, (run isGroupedDigit rest).2)
  | cs => ([], cs)

/-- A letter `e`, an optional sign and at least one digit; without a digit nothing is taken. -/
def exponent : Cut
  | [] => ([], [])
  | c :: rest =>
    if c == 'e' || c == 'E' then
      let sign := single isSign rest
      let digits := run Char.isDigit sign.2
      if digits.1.isEmpty then ([], c :: rest) else (c :: (sign.1 ++ digits.1), digits.2)
    else ([], c :: rest)

/-- Digits, a fraction and an exponent. -/
def decimal : Cut := ((run isGroupedDigit).andThen fraction).andThen exponent

/-- A hexadecimal or decimal number without sign and suffix. -/
def magnitude : Cut
  | '0' :: x :: rest =>
    if x == 'x' || x == 'X' then
      ('0' :: x :: (run isGroupedHexDigit rest).1, (run isGroupedHexDigit rest).2)
    else decimal ('0' :: x :: rest)
  | cs => decimal cs

/-- Whether a number without sign stands first: a digit, or a point and a digit. -/
def startsMagnitude : List Char → Bool
  | '.' :: d :: _ => d.isDigit
  | c :: _ => c.isDigit
  | [] => false

/-! ## Numerals and ratios -/

/-- The longest numeral at the front of the text, and the text behind it. -/
def read? (cs : List Char) : Option (List Char × List Char) :=
  if startsMagnitude (single isSign cs).2 then
    some (((single isSign).andThen magnitude).andThen (single isSuffix) cs)
  else none

/-- Spaces and tabs, which may surround the numerals of a ratio. -/
def isGap (c : Char) : Bool := c == ' ' || c == '\t'

/-- A numeral with the gaps around it. -/
def spaced? (cs : List Char) : Option (List Char × List Char) :=
  (read? (run isGap cs).2).map fun (numeral, rest) =>
    ((run isGap cs).1 ++ numeral ++ (run isGap rest).1, (run isGap rest).2)

/-- The ratio `(a/b)` at the front of the text, and the text behind it. A slash that opens a
comment is no division. -/
def ratio? (cs : List Char) : Option (List Char × List Char) :=
  match cs with
  | '(' :: rest =>
    match spaced? rest with
    | some (above, '/' :: rest) =>
      if rest.head? = some '/' ∨ rest.head? = some '*' then none
      else
        match spaced? rest with
        | some (below, ')' :: rest) => some ('(' :: (above ++ '/' :: (below ++ [')'])), rest)
        | _ => none
    | _ => none
  | _ => none

/-! ## Nothing is lost -/

/-- The cut of a fraction loses nothing. -/
theorem fraction_exact : fraction.Exact := by
  intro cs
  unfold fraction
  split
  · split
    · rfl
    · simp [run]
  · rfl

/-- The cut of an exponent loses nothing. -/
theorem exponent_exact : exponent.Exact := by
  intro cs
  unfold exponent
  split
  · rfl
  · next c rest =>
    split
    · dsimp only
      split
      · rfl
      · have h1 := single_exact isSign rest
        have h2 := run_exact Char.isDigit (single isSign rest).2
        simp only [List.cons_append, List.append_assoc]
        rw [h2, h1]
    · rfl

/-- The cut of a decimal numeral loses nothing. -/
theorem decimal_exact : decimal.Exact :=
  ((run_exact _).andThen fraction_exact).andThen exponent_exact

/-- The cut of a numeral without its sign loses nothing. -/
theorem magnitude_exact : magnitude.Exact := by
  intro cs
  unfold magnitude
  split
  · split
    · simp [run]
    · exact decimal_exact _
  · exact decimal_exact _

/-- A numeral and the text behind it make up the text. -/
theorem append_of_read? {cs numeral rest : List Char} (h : read? cs = some (numeral, rest)) :
    numeral ++ rest = cs := by
  unfold read? at h
  split at h
  · have := ((single_exact isSign).andThen magnitude_exact).andThen (single_exact isSuffix) cs
    simp only [Option.some.injEq] at h
    rw [h] at this
    exact this
  · exact absurd h (by simp)

/-- A numeral with the gaps around it and what is left are what was there. -/
theorem append_of_spaced? {cs numeral rest : List Char} (h : spaced? cs = some (numeral, rest)) :
    numeral ++ rest = cs := by
  unfold spaced? at h
  obtain ⟨⟨n, r⟩, hr, he⟩ := Option.map_eq_some_iff.mp h
  simp only [Prod.mk.injEq] at he
  obtain ⟨rfl, rfl⟩ := he
  have h1 := append_of_read? hr
  have h2 := run_exact isGap r
  have h3 := run_exact isGap cs
  rw [List.append_assoc, List.append_assoc, h2, h1, h3]

/-- A ratio is an opening parenthesis, two numerals around a slash, and a closing parenthesis. -/
theorem eq_of_ratio? {cs taken rest : List Char} (h : ratio? cs = some (taken, rest)) :
    ∃ above below, taken = '(' :: (above ++ '/' :: (below ++ [')'])) ∧
      spaced? (above ++ '/' :: (below ++ ')' :: rest)) =
        some (above, '/' :: (below ++ ')' :: rest)) ∧
      spaced? (below ++ ')' :: rest) = some (below, ')' :: rest) ∧
      cs = '(' :: (above ++ '/' :: (below ++ ')' :: rest)) := by
  unfold ratio? at h
  split at h
  · split at h
    · next hup =>
      split at h
      · simp at h
      · split at h
        · next hlow =>
          simp only [Option.some.injEq, Prod.mk.injEq] at h
          obtain ⟨rfl, rfl⟩ := h
          have h1 := append_of_spaced? hup
          have h2 := append_of_spaced? hlow
          subst h2
          subst h1
          exact ⟨_, _, rfl, hup, hlow, rfl⟩
        · simp at h
    · simp at h
  · simp at h

/-- A ratio and the text behind it make up the text. -/
theorem append_of_ratio? {cs taken rest : List Char} (h : ratio? cs = some (taken, rest)) :
    taken ++ rest = cs := by
  obtain ⟨above, below, rfl, -, -, rfl⟩ := eq_of_ratio? h
  simp

/-- A numeral is never empty. -/
theorem ne_nil_of_read? {cs numeral rest : List Char} (h : read? cs = some (numeral, rest)) :
    numeral ≠ [] := by
  have key : ∀ cs, startsMagnitude cs → (magnitude cs).1 ≠ [] := by
    intro cs hs
    unfold startsMagnitude at hs
    unfold magnitude
    split
    · split
      · simp
      · simp [decimal, Cut.andThen, run, isGroupedDigit]
    · split at hs
      · next d _ _ =>
        have hp : isGroupedDigit '.' = false := by decide
        have hne : ¬ d = '.' := by rintro rfl; exact absurd hs (by decide)
        simp [decimal, Cut.andThen, run, fraction, hp, hne]
      · simp [decimal, Cut.andThen, run, isGroupedDigit, hs]
      · simp at hs
  unfold read? at h
  split at h
  · next hs =>
    simp only [Option.some.injEq] at h
    have hn : numeral = (single isSign cs).1 ++ (magnitude (single isSign cs).2).1 ++
        (single isSuffix (magnitude (single isSign cs).2).2).1 := by
      have := congrArg Prod.fst h
      simpa [Cut.andThen] using this.symm
    have := key _ hs
    rw [hn]
    simp [this]
  · exact absurd h (by simp)

/-- A ratio is never empty. -/
theorem ne_nil_of_ratio? {cs taken rest : List Char} (h : ratio? cs = some (taken, rest)) :
    taken ≠ [] := by
  obtain ⟨above, below, rfl, -⟩ := eq_of_ratio? h
  simp

end ApiSurface.Numeral
