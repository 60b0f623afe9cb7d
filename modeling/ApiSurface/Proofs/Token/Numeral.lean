import ApiSurface.Token.Numeral
import ApiSurface.Proofs.Text.Boundary

/-!
# The language of numerals

`IsNumeral` and `IsRatio` say what a numeral and a ratio are, part by part and without regard to
what follows them. Reading is sound for this language (`isNumeral_of_read?`, `isRatio_of_ratio?`),
and it takes a whole numeral wherever the next character cannot go on with it (`read?_append`,
`ratio?_append`). So what is read as a numeral in one place is read as the same numeral in any other
place that ends it: the looks ahead beyond a numeral, for a second point or for the digits of an
exponent, leave no trace in it.
-/

namespace ApiSurface

open Text

namespace Numeral

/-! ## Cuts at a boundary -/

/-- At most one character, of the given class. -/
inductive AtMostOne (p : Char → Bool) : List Char → Prop
  | none : AtMostOne p []
  | one {c : Char} : p c = true → AtMostOne p [c]

/-- Every character of a run of at most one is from the class. -/
theorem AtMostOne.forall_mem {p : Char → Bool} {cs : List Char} (h : AtMostOne p cs) :
    ∀ c ∈ cs, p c = true := by
  cases h with
  | none => simp
  | one hc => simpa using hc

/-- At most one character of a class is at most one of a larger class. -/
theorem AtMostOne.mono {p q : Char → Bool} {cs : List Char} (h : AtMostOne p cs)
    (hpq : ∀ c, p c = true → q c = true) : AtMostOne q cs := by
  cases h with
  | none => exact .none
  | one hc => exact .one (hpq _ hc)

/-- A run up to a boundary is cut off as a whole. -/
theorem run_append {p : Char → Bool} {cs rest : List Char} (hcs : ∀ c ∈ cs, p c = true)
    (hrest : Boundary p rest) : run p (cs ++ rest) = (cs, rest) := by
  rw [run, takeWhile_append_boundary hcs hrest, dropWhile_append_boundary hcs hrest]

/-- At most one character up to a boundary is cut off as a whole. -/
theorem single_append {p : Char → Bool} {cs rest : List Char} (hcs : AtMostOne p cs)
    (hrest : Boundary p rest) : single p (cs ++ rest) = (cs, rest) := by
  cases hcs with
  | none =>
    rcases rest with _ | ⟨c, rest⟩
    · rfl
    · simp [single, boundary_cons.mp hrest]
  | one hc => simp [single, hc]

/-- At most one character is cut off. -/
theorem atMostOne_single (p : Char → Bool) (cs : List Char) : AtMostOne p (single p cs).1 := by
  rcases cs with _ | ⟨c, cs⟩
  · exact .none
  · by_cases hc : p c = true
    · rw [single, if_pos hc]
      exact .one hc
    · rw [single, if_neg hc]
      exact .none

/-- The cut never takes the character. -/
def Cut.Avoids (c : Char) (f : Cut) : Prop := ∀ cs, c ∉ (f cs).1

/-- A run of a class never takes a character outside it. -/
theorem run_avoids {c : Char} {p : Char → Bool} (h : p c = false) : (run p).Avoids c :=
  fun _ hc => Bool.eq_false_iff.mp h (List.mem_takeWhile_imp hc)

/-- A single character of a class is never one outside it. -/
theorem single_avoids {c : Char} {p : Char → Bool} (h : p c = false) : (single p).Avoids c :=
  fun cs hc => Bool.eq_false_iff.mp h ((atMostOne_single p cs).forall_mem c hc)

/-- Behind a run, a single character does not belong to the class of the run. -/
theorem atMostOne_single_run (p q : Char → Bool) (cs : List Char) :
    AtMostOne (fun c => p c && !q c) (single p (run q cs).2).1 := by
  rcases hrest : (run q cs).2 with _ | ⟨c, rest⟩
  · exact .none
  · have hq : q c = false := by
      have hhead := List.head?_dropWhile_not q cs
      rw [show cs.dropWhile q = c :: rest from hrest] at hhead
      exact hhead
    by_cases hc : p c = true
    · rw [single, if_pos hc]
      exact .one (by simp [hc, hq])
    · rw [single, if_neg hc]
      exact .none

/-! ## The parts of a decimal -/

/-- Nothing, or a point and digits. -/
inductive IsFraction : List Char → Prop
  | none : IsFraction []
  | point {ds : List Char} : (∀ d ∈ ds, isGroupedDigit d = true) → IsFraction ('.' :: ds)

/-- Nothing, or a letter `e`, perhaps a sign, and at least one digit. -/
inductive IsExponent : List Char → Prop
  | none : IsExponent []
  | letter {e : Char} {sign ds : List Char} : e = 'e' ∨ e = 'E' → AtMostOne isSign sign →
      ds ≠ [] → (∀ d ∈ ds, d.isDigit = true) → IsExponent (e :: (sign ++ ds))

/-- What is cut off for a fraction is one. -/
theorem isFraction_fraction (cs : List Char) : IsFraction (fraction cs).1 := by
  unfold fraction
  split
  · split
    · exact .none
    · exact .point fun d hd => List.mem_takeWhile_imp hd
  · exact .none

/-- What is cut off for an exponent is one. -/
theorem isExponent_exponent (cs : List Char) : IsExponent (exponent cs).1 := by
  unfold exponent
  split
  · exact .none
  · split
    · next he =>
      dsimp only
      split
      · exact .none
      · next hds =>
        refine .letter (by simpa using he) (atMostOne_single _ _) ?_ fun d hd =>
          List.mem_takeWhile_imp hd
        simpa using hds
    · exact .none

/-- A fraction ends a run of any class without the point. -/
theorem IsFraction.boundary {p : Char → Bool} {cs : List Char} (h : IsFraction cs)
    (hp : p '.' = false) : Boundary p cs := by
  cases h with
  | none => exact boundary_nil p
  | point _ => exact boundary_cons.mpr hp

/-- An exponent ends a run of any class without its letter. -/
theorem IsExponent.boundary {p : Char → Bool} {cs : List Char} (h : IsExponent cs)
    (hp : p 'e' = false) (hp' : p 'E' = false) : Boundary p cs := by
  cases h with
  | none => exact boundary_nil p
  | letter he _ _ _ =>
    rw [boundary_cons]
    rcases he with rfl | rfl
    · exact hp
    · exact hp'

/-- The characters that can go on with a numeral. A sign only does so behind the letter of an
exponent, which is no numeral without its digits. -/
def goesOn (c : Char) : Bool :=
  isGroupedHexDigit c || isSuffix c || c == '.' || c == 'x' || c == 'X'

/-- A numeral can go on with a digit or an underscore. -/
theorem goesOn_of_groupedDigit {c : Char} (h : isGroupedDigit c = true) : goesOn c = true := by
  simp only [isGroupedDigit, Bool.or_eq_true] at h
  rcases h with h | h
  · simp [goesOn, isGroupedHexDigit, isHexDigit, h]
  · simp [goesOn, isGroupedHexDigit, h]

/-- A fraction is cut off as a whole if neither a digit nor a point follows. -/
theorem fraction_append {f rest : List Char} (hf : IsFraction f)
    (hdigit : Boundary isGroupedDigit rest) (hpoint : Boundary (· == '.') rest) :
    fraction (f ++ rest) = (f, rest) := by
  cases hf with
  | none =>
    rcases rest with _ | ⟨c, rest⟩
    · rfl
    · have hc : c ≠ '.' := by simpa using boundary_cons.mp hpoint
      rw [List.nil_append, fraction]
      intro more hmore
      exact hc (List.cons.inj hmore).1
  | @point ds hds =>
    have hnext : Boundary (· == '.') (ds ++ rest) := by
      refine Boundary.append (boundary_of_forall hds fun c hc => ?_) hpoint
      rw [beq_eq_false_iff_ne]
      rintro rfl
      exact absurd hc (by decide)
    have hhead : (ds ++ rest).head? ≠ some '.' := fun h => absurd (hnext '.' h) (by decide)
    rw [List.cons_append, fraction, if_neg hhead, run_append hds hdigit]

/-- No digit is a sign. -/
theorem isSign_of_isDigit {c : Char} (h : c.isDigit = true) : isSign c = false := by
  rw [← Bool.not_eq_true]
  intro hs
  simp only [isSign, Bool.or_eq_true, beq_iff_eq] at hs
  rcases hs with rfl | rfl <;> exact absurd h (by decide)

/-- Behind its letter an exponent goes on as far as there are digits. -/
theorem exponent_letter {e : Char} {sign ds : List Char} (he : e = 'e' ∨ e = 'E')
    (hsign : AtMostOne isSign sign) (hne : ds ≠ []) (hds : ∀ d ∈ ds, d.isDigit = true)
    (rest : List Char) : exponent (e :: (sign ++ ds) ++ rest) =
      (e :: (sign ++ (run Char.isDigit (ds ++ rest)).1), (run Char.isDigit (ds ++ rest)).2) := by
  obtain ⟨d, ds, rfl⟩ := List.exists_cons_of_ne_nil hne
  have hd := hds d List.mem_cons_self
  have hcut : single isSign (sign ++ (d :: ds ++ rest)) = (sign, d :: ds ++ rest) :=
    single_append hsign (boundary_cons.mpr (isSign_of_isDigit hd))
  have hsome : (run Char.isDigit (d :: ds ++ rest)).1 ≠ [] := by simp [run, hd]
  have hc : (e == 'e' || e == 'E') = true := by simpa using he
  rw [List.cons_append, List.append_assoc, exponent, if_pos hc]
  simp only [hcut, List.isEmpty_iff, hsome, if_false]

/-- An exponent is cut off as a whole if no digit follows, nor the letter of another. -/
theorem exponent_append {e rest : List Char} (he : IsExponent e)
    (hdigit : Boundary Char.isDigit rest)
    (hletter : Boundary (fun c => c == 'e' || c == 'E') rest) :
    exponent (e ++ rest) = (e, rest) := by
  cases he with
  | none =>
    rcases rest with _ | ⟨c, rest⟩
    · rfl
    · have hc := boundary_cons.mp hletter
      simp only [List.nil_append, exponent, hc, Bool.false_eq_true, if_false]
  | letter hletter' hsign hne hds =>
    rw [exponent_letter hletter' hsign hne hds, run_append hds hdigit]

/-- Digits and a fraction are taken whole where neither can go on. -/
theorem mantissa_append {ds f rest : List Char} (hds : ∀ d ∈ ds, isGroupedDigit d = true)
    (hf : IsFraction f) (hdigit : Boundary isGroupedDigit rest)
    (hpoint : Boundary (· == '.') rest) :
    (run isGroupedDigit).andThen fraction (ds ++ (f ++ rest)) = (ds ++ f, rest) := by
  rw [Cut.andThen, run_append hds ((hf.boundary rfl).append hdigit),
    fraction_append hf hdigit hpoint]

/-- A decimal magnitude is cut off as a whole if nothing follows that could go on with it. -/
theorem decimal_append {ds f e rest : List Char} (hds : ∀ d ∈ ds, isGroupedDigit d = true)
    (hf : IsFraction f) (he : IsExponent e) (hdigit : Boundary isGroupedDigit rest)
    (hpoint : Boundary (· == '.') rest)
    (hletter : Boundary (fun c => c == 'e' || c == 'E') rest) :
    decimal (ds ++ (f ++ (e ++ rest))) = (ds ++ f ++ e, rest) := by
  have hdigit' : Boundary isGroupedDigit (e ++ rest) := (he.boundary rfl rfl).append hdigit
  have hpoint' : Boundary (· == '.') (e ++ rest) := (he.boundary rfl rfl).append hpoint
  have hexponent : exponent (e ++ rest) = (e, rest) :=
    exponent_append he (hdigit.mono fun c hc => by simp [isGroupedDigit, hc]) hletter
  rw [decimal, Cut.andThen, mantissa_append hds hf hdigit' hpoint', hexponent]

/-! ## Numerals -/

/-- A sign or none, a hexadecimal or decimal number, and a closing letter or none. A letter that is
a hexadecimal digit does not close a hexadecimal number. -/
inductive IsNumeral : List Char → Prop
  | hexadecimal {sign ds suffix : List Char} {x : Char} : AtMostOne isSign sign →
      x = 'x' ∨ x = 'X' → (∀ d ∈ ds, isGroupedHexDigit d = true) →
      AtMostOne (fun c => isSuffix c && !isGroupedHexDigit c) suffix →
      IsNumeral (sign ++ ('0' :: x :: ds ++ suffix))
  | decimal {sign ds f e suffix : List Char} : AtMostOne isSign sign →
      (∀ d ∈ ds, isGroupedDigit d = true) → IsFraction f → IsExponent e →
      startsMagnitude (ds ++ f) = true → AtMostOne isSuffix suffix →
      IsNumeral (sign ++ (ds ++ f ++ e ++ suffix))

/-- A number begins with a digit, or with a point and a digit. -/
theorem startsMagnitude_iff {cs : List Char} : startsMagnitude cs = true ↔
    (∃ c rest, cs = c :: rest ∧ c.isDigit = true) ∨
      ∃ d rest, cs = '.' :: d :: rest ∧ d.isDigit = true := by
  constructor
  · intro h
    unfold startsMagnitude at h
    split at h
    · exact Or.inr ⟨_, _, rfl, h⟩
    · exact Or.inl ⟨_, _, rfl, h⟩
    · cases h
  · rintro (⟨c, rest, rfl, hc⟩ | ⟨d, rest, rfl, hd⟩)
    · rw [startsMagnitude]
      · exact hc
      · rintro d more rfl
        exact absurd hc (by decide)
    · exact hd

/-- Whether a magnitude begins here is not undone by text behind it. -/
theorem startsMagnitude_append {cs : List Char} (h : startsMagnitude cs = true)
    (rest : List Char) : startsMagnitude (cs ++ rest) = true := by
  rw [startsMagnitude_iff] at h ⊢
  rcases h with ⟨c, more, rfl, hc⟩ | ⟨d, more, rfl, hd⟩
  · exact Or.inl ⟨c, more ++ rest, rfl, hc⟩
  · exact Or.inr ⟨d, more ++ rest, rfl, hd⟩

/-- The beginning of a number lies in its digits and its fraction. -/
theorem startsMagnitude_digits {cs : List Char} (h : startsMagnitude cs = true) :
    startsMagnitude ((run isGroupedDigit cs).1 ++ (fraction (run isGroupedDigit cs).2).1) =
      true := by
  rcases startsMagnitude_iff.mp h with ⟨c, rest, rfl, hc⟩ | ⟨d, rest, rfl, hd⟩
  · apply startsMagnitude_append
    have hgrouped : isGroupedDigit c = true := by simp [isGroupedDigit, hc]
    rw [run, List.takeWhile_cons_of_pos hgrouped]
    exact startsMagnitude_iff.mpr (Or.inl ⟨c, _, rfl, hc⟩)
  · have hgrouped : isGroupedDigit d = true := by simp [isGroupedDigit, hd]
    have hpoint : (d :: rest).head? ≠ some '.' := by
      intro he
      rw [List.head?_cons, Option.some.injEq] at he
      rw [he] at hd
      exact absurd hd (by decide)
    have hrun : run isGroupedDigit ('.' :: d :: rest) = ([], '.' :: d :: rest) := rfl
    rw [hrun, List.nil_append, fraction, if_neg hpoint, run, List.takeWhile_cons_of_pos hgrouped]
    exact startsMagnitude_iff.mpr (Or.inr ⟨d, _, rfl, hd⟩)

/-- A number is hexadecimal behind `0x`, and decimal otherwise. -/
theorem magnitude_cases (cs : List Char) :
    (∃ x rest, cs = '0' :: x :: rest ∧ (x = 'x' ∨ x = 'X') ∧ magnitude cs =
      ('0' :: x :: (run isGroupedHexDigit rest).1, (run isGroupedHexDigit rest).2)) ∨
    magnitude cs = decimal cs := by
  unfold magnitude
  split
  · next x rest =>
    split
    · next hx => exact Or.inl ⟨x, rest, rfl, by simpa using hx, rfl⟩
    · exact Or.inr rfl
  · exact Or.inr rfl

/-- What is read is a numeral. -/
theorem isNumeral_of_read? {cs n rest : List Char} (h : read? cs = some (n, rest)) :
    IsNumeral n := by
  unfold read? at h
  split at h
  · next hstart =>
    rw [Option.some.injEq] at h
    have hn : n = (single isSign cs).1 ++ ((magnitude (single isSign cs).2).1 ++
        (single isSuffix (magnitude (single isSign cs).2).2).1) := by
      rw [← List.append_assoc]
      exact (congrArg Prod.fst h).symm
    rw [hn]
    have hsign := atMostOne_single isSign cs
    rcases magnitude_cases (single isSign cs).2 with ⟨x, more, -, hx, hm⟩ | hm
    · rw [hm]
      exact .hexadecimal hsign hx (fun d hd => List.mem_takeWhile_imp hd)
        (atMostOne_single_run isSuffix isGroupedHexDigit more)
    · rw [hm]
      exact .decimal hsign (fun d hd => List.mem_takeWhile_imp hd) (isFraction_fraction _)
        (isExponent_exponent _) (startsMagnitude_digits hstart) (atMostOne_single _ _)
  · cases h

/-- No sign stands where a magnitude begins. -/
theorem boundary_isSign_of_startsMagnitude {cs : List Char} (h : startsMagnitude cs = true) :
    Boundary isSign cs := by
  rcases startsMagnitude_iff.mp h with ⟨c, rest, rfl, hc⟩ | ⟨d, rest, rfl, -⟩
  · exact boundary_cons.mpr (isSign_of_isDigit hc)
  · exact boundary_cons.mpr rfl

/-- Behind a sign or none, a number is read and then a closing letter or none. -/
theorem read?_of_sign {sign cs : List Char} (hsign : AtMostOne isSign sign)
    (hstart : startsMagnitude cs = true) :
    read? (sign ++ cs) = some (sign ++ ((magnitude cs).1 ++ (single isSuffix (magnitude cs).2).1),
      (single isSuffix (magnitude cs).2).2) := by
  have hcut : single isSign (sign ++ cs) = (sign, cs) :=
    single_append hsign (boundary_isSign_of_startsMagnitude hstart)
  rw [read?, hcut, if_pos hstart]
  simp only [Cut.andThen, hcut, List.append_assoc]

/-- A numeral is read from its parts: a sign, a magnitude and a suffix. -/
theorem read?_of_parts {sign m suffix rest : List Char} (hsign : AtMostOne isSign sign)
    (hstart : startsMagnitude (m ++ (suffix ++ rest)) = true)
    (hm : magnitude (m ++ (suffix ++ rest)) = (m, suffix ++ rest))
    (hsuffix : AtMostOne isSuffix suffix) (hrest : Boundary isSuffix rest) :
    read? (sign ++ (m ++ suffix) ++ rest) = some (sign ++ (m ++ suffix), rest) := by
  have hclose : single isSuffix (suffix ++ rest) = (suffix, rest) := single_append hsuffix hrest
  rw [List.append_assoc, List.append_assoc, read?_of_sign hsign hstart, hm, hclose]

/-- Digits that are not followed by the mark of a hexadecimal number are decimal. -/
theorem magnitude_of_digits {ds rest : List Char} (hds : ∀ d ∈ ds, isGroupedDigit d = true)
    (hdigit : Boundary isGroupedDigit rest)
    (hmark : Boundary (fun c => c == 'x' || c == 'X') rest) :
    magnitude (ds ++ rest) = decimal (ds ++ rest) := by
  rcases magnitude_cases (ds ++ rest) with ⟨x, more, hcs, hx, -⟩ | h
  · -- The second character would be the mark, which is no digit and does not begin the rest.
    exfalso
    rcases ds with _ | ⟨d, _ | ⟨d', ds⟩⟩
    · rw [List.nil_append] at hcs
      rw [hcs, boundary_cons] at hdigit
      exact absurd hdigit (by decide)
    · obtain ⟨-, rfl⟩ := List.cons.inj hcs
      rw [boundary_cons] at hmark
      rcases hx with rfl | rfl <;> exact absurd hmark (by decide)
    · obtain ⟨-, hcs⟩ := List.cons.inj hcs
      obtain ⟨rfl, -⟩ := List.cons.inj hcs
      have hd := hds d' (by simp)
      rcases hx with rfl | rfl <;> exact absurd hd (by decide)
  · exact h

/-- The letters that close a numeral. -/
theorem isSuffix_iff {c : Char} : isSuffix c = true ↔
    c = 'L' ∨ c = 'l' ∨ c = 'F' ∨ c = 'f' ∨ c = 'D' ∨ c = 'd' := by
  simp [isSuffix, or_assoc]

/-- A class that lies in what goes on with a numeral, without the closing letters, has a boundary
behind the number. -/
theorem boundary_behind_number {p : Char → Bool} {suffix rest : List Char}
    (hsuffix : AtMostOne isSuffix suffix) (hrest : Boundary goesOn rest)
    (hp : ∀ c, p c = true → goesOn c = true)
    (hletters : ['L', 'l', 'F', 'f', 'D', 'd'].any p = false) :
    Boundary p (suffix ++ rest) := by
  refine Boundary.append (boundary_of_forall hsuffix.forall_mem fun c hc => ?_) (hrest.mono hp)
  exact Bool.eq_false_iff.mpr (List.any_eq_false.mp hletters c (by simpa using isSuffix_iff.mp hc))

/-- A numeral is read whole where the next character cannot go on with it. -/
theorem read?_append {n rest : List Char} (hn : IsNumeral n) (hrest : Boundary goesOn rest) :
    read? (n ++ rest) = some (n, rest) := by
  have hclose : Boundary isSuffix rest := hrest.mono fun c hc => by simp [goesOn, hc]
  cases hn with
  | @hexadecimal sign ds suffix x hsign hx hds hsuffix =>
    -- A suffix of a hexadecimal numeral is no hexadecimal digit, so the digits end in front of it.
    have hsuffix' : AtMostOne isSuffix suffix :=
      hsuffix.mono fun c hc => (Bool.and_eq_true_iff.mp hc).1
    have hhex : Boundary isGroupedHexDigit (suffix ++ rest) := by
      refine Boundary.append (boundary_of_forall hsuffix.forall_mem fun c hc => ?_)
        (hrest.mono fun c hc => by simp [goesOn, hc])
      simpa using (Bool.and_eq_true_iff.mp hc).2
    have hm : magnitude ('0' :: x :: (ds ++ (suffix ++ rest))) =
        ('0' :: x :: ds, suffix ++ rest) := by
      rw [magnitude, if_pos (by simpa using hx), run_append hds hhex]
    exact read?_of_parts hsign rfl hm hsuffix' hclose
  | @decimal sign ds f e suffix hsign hds hf he hstart hsuffix =>
    -- Each of the three parts ends where it does, whether the suffix or the rest comes next.
    have hdigit : Boundary isGroupedDigit (suffix ++ rest) :=
      boundary_behind_number hsuffix hrest (fun c => goesOn_of_groupedDigit) rfl
    have hpoint : Boundary (· == '.') (suffix ++ rest) :=
      boundary_behind_number hsuffix hrest (fun c hc => by simp_all [goesOn]) rfl
    have hletter : Boundary (fun c => c == 'e' || c == 'E') (suffix ++ rest) := by
      refine boundary_behind_number hsuffix hrest (fun c hc => ?_) rfl
      simp only [Bool.or_eq_true, beq_iff_eq] at hc
      rcases hc with rfl | rfl <;> rfl
    have hmark : Boundary (fun c => c == 'x' || c == 'X') (suffix ++ rest) := by
      refine boundary_behind_number hsuffix hrest (fun c hc => ?_) rfl
      simp only [Bool.or_eq_true, beq_iff_eq] at hc
      rcases hc with rfl | rfl <;> rfl
    have hm : magnitude (ds ++ (f ++ (e ++ (suffix ++ rest)))) =
        (ds ++ f ++ e, suffix ++ rest) := by
      rw [magnitude_of_digits hds, decimal_append hds hf he hdigit hpoint hletter]
      · exact (hf.boundary rfl).append ((he.boundary rfl rfl).append hdigit)
      · exact (hf.boundary rfl).append ((he.boundary rfl rfl).append hmark)
    have hstart' : startsMagnitude (ds ++ f ++ e ++ (suffix ++ rest)) = true :=
      startsMagnitude_append (startsMagnitude_append hstart e) _
    refine read?_of_parts hsign hstart' ?_ hsuffix hclose
    rw [List.append_assoc, List.append_assoc]
    exact hm

/-- The characters of numerals. -/
def isNumeralPart (c : Char) : Bool := isSign c || goesOn c

/-- A fraction consists of characters of numerals. -/
theorem IsFraction.forall_mem {f : List Char} (hf : IsFraction f) :
    ∀ c ∈ f, isNumeralPart c = true := by
  intro c hc
  cases hf with
  | none => cases hc
  | point hds =>
    rcases List.mem_cons.mp hc with rfl | hc
    · rfl
    · simp [isNumeralPart, goesOn_of_groupedDigit (hds c hc)]

/-- An exponent consists of characters of numerals. -/
theorem IsExponent.forall_mem {e : List Char} (he : IsExponent e) :
    ∀ c ∈ e, isNumeralPart c = true := by
  intro c hc
  cases he with
  | none => cases hc
  | letter hletter hsign _ hds =>
    rw [List.mem_cons, List.mem_append] at hc
    rcases hc with rfl | hc | hc
    · rcases hletter with rfl | rfl <;> rfl
    · simp [isNumeralPart, hsign.forall_mem c hc]
    · have hgrouped : isGroupedDigit c = true := by simp [isGroupedDigit, hds c hc]
      simp [isNumeralPart, goesOn_of_groupedDigit hgrouped]

/-- A numeral consists of characters of numerals. -/
theorem IsNumeral.forall_mem {n : List Char} (hn : IsNumeral n) :
    ∀ c ∈ n, isNumeralPart c = true := by
  intro c hc
  cases hn with
  | hexadecimal hsign hx hds hsuffix =>
    simp only [List.mem_append, List.mem_cons, List.cons_append] at hc
    rcases hc with hc | rfl | rfl | hc | hc
    · simp [isNumeralPart, hsign.forall_mem c hc]
    · rfl
    · rcases hx with rfl | rfl <;> rfl
    · simp [isNumeralPart, goesOn, hds c hc]
    · simp [isNumeralPart, goesOn, (Bool.and_eq_true_iff.mp (hsuffix.forall_mem c hc)).1]
  | decimal hsign hds hf he _ hsuffix =>
    simp only [List.mem_append] at hc
    rcases hc with hc | ((hc | hc) | hc) | hc
    · simp [isNumeralPart, hsign.forall_mem c hc]
    · simp [isNumeralPart, goesOn_of_groupedDigit (hds c hc)]
    · exact hf.forall_mem c hc
    · exact he.forall_mem c hc
    · simp [isNumeralPart, goesOn, hsuffix.forall_mem c hc]

/-- A numeral is not empty. -/
theorem IsNumeral.ne_nil {n : List Char} (hn : IsNumeral n) : n ≠ [] :=
  ne_nil_of_read? (read?_append hn (boundary_nil goesOn))

/-! ## Ratios -/

/-- A numeral with the gaps around it. -/
inductive IsSpaced : List Char → Prop
  | mk {gap n gap' : List Char} : (∀ c ∈ gap, isGap c = true) → IsNumeral n →
      (∀ c ∈ gap', isGap c = true) → IsSpaced (gap ++ n ++ gap')

/-- Two numerals around a slash, in parentheses. -/
inductive IsRatio : List Char → Prop
  | mk {above below : List Char} : IsSpaced above → IsSpaced below →
      IsRatio ('(' :: (above ++ '/' :: (below ++ [')'])))

/-- What is read is a numeral with gaps around it. -/
theorem isSpaced_of_spaced? {cs n rest : List Char} (h : spaced? cs = some (n, rest)) :
    IsSpaced n := by
  obtain ⟨⟨m, more⟩, hread, he⟩ := Option.map_eq_some_iff.mp h
  obtain ⟨rfl, -⟩ := Prod.mk.inj he
  exact .mk (fun c hc => List.mem_takeWhile_imp hc) (isNumeral_of_read? hread) fun c hc =>
    List.mem_takeWhile_imp hc

/-- What is read is a ratio. -/
theorem isRatio_of_ratio? {cs n rest : List Char} (h : ratio? cs = some (n, rest)) :
    IsRatio n := by
  obtain ⟨above, below, rfl, habove, hbelow, -⟩ := eq_of_ratio? h
  exact .mk (isSpaced_of_spaced? habove) (isSpaced_of_spaced? hbelow)

/-- Gaps consist of blanks and tabs. -/
theorem isGap_iff {c : Char} : isGap c = true ↔ c = ' ' ∨ c = '\t' := by
  simp [isGap]

/-- No gap goes on with a numeral. -/
theorem boundary_goesOn_gap {gap rest : List Char} (hgap : ∀ c ∈ gap, isGap c = true)
    (hrest : Boundary goesOn rest) : Boundary goesOn (gap ++ rest) := by
  refine Boundary.append (boundary_of_forall hgap fun c hc => ?_) hrest
  rcases isGap_iff.mp hc with rfl | rfl <;> rfl

/-- A numeral with gaps around it is read as a whole if nothing of it follows. -/
theorem spaced?_append {cs rest : List Char} (h : IsSpaced cs) (hgap : Boundary isGap rest)
    (hrest : Boundary goesOn rest) : spaced? (cs ++ rest) = some (cs, rest) := by
  obtain @⟨gap, n, gap', hbefore, hn, hafter⟩ := h
  have hbehind : Boundary goesOn (gap' ++ rest) := boundary_goesOn_gap hafter hrest
  have hfirst : Boundary isGap (n ++ (gap' ++ rest)) := by
    obtain ⟨c, m, rfl⟩ := List.exists_cons_of_ne_nil hn.ne_nil
    have hc := hn.forall_mem c List.mem_cons_self
    rw [List.cons_append, boundary_cons, ← Bool.not_eq_true]
    intro hg
    rcases isGap_iff.mp hg with rfl | rfl <;> exact absurd hc (by decide)
  have hrun : run isGap (gap ++ (n ++ (gap' ++ rest))) = (gap, n ++ (gap' ++ rest)) :=
    run_append hbefore hfirst
  have hrun' : run isGap (gap' ++ rest) = (gap', rest) := run_append hafter hgap
  rw [List.append_assoc, List.append_assoc, spaced?, hrun, read?_append hn hbehind]
  simp only [Option.map_some, hrun', List.append_assoc]

/-- The characters between the parentheses of a ratio. -/
theorem IsSpaced.forall_mem {cs : List Char} (h : IsSpaced cs) :
    ∀ c ∈ cs, (isGap c || isNumeralPart c) = true := by
  obtain @⟨gap, n, gap', hbefore, hn, hafter⟩ := h
  intro c hc
  simp only [List.mem_append] at hc
  rcases hc with (hc | hc) | hc
  · simp [hbefore c hc]
  · simp [hn.forall_mem c hc]
  · simp [hafter c hc]

/-- A ratio is read whole wherever it stands. -/
theorem ratio?_append {cs : List Char} (h : IsRatio cs) (rest : List Char) :
    ratio? (cs ++ rest) = some (cs, rest) := by
  obtain @⟨above, below, habove, hbelow⟩ := h
  have hup : spaced? (above ++ '/' :: (below ++ ')' :: rest)) =
      some (above, '/' :: (below ++ ')' :: rest)) :=
    spaced?_append habove (boundary_cons.mpr rfl) (boundary_cons.mpr rfl)
  have hlow : spaced? (below ++ ')' :: rest) = some (below, ')' :: rest) :=
    spaced?_append hbelow (boundary_cons.mpr rfl) (boundary_cons.mpr rfl)
  -- The lower numeral does not begin like a comment.
  have hhead : ¬ ((below ++ ')' :: rest).head? = some '/' ∨
      (below ++ ')' :: rest).head? = some '*') := by
    have hboundary : Boundary (fun c => c == '/' || c == '*') (below ++ ')' :: rest) := by
      refine Boundary.append (boundary_of_forall hbelow.forall_mem fun c hc => ?_)
        (boundary_cons.mpr rfl)
      rw [← Bool.not_eq_true]
      intro hslash
      simp only [Bool.or_eq_true, beq_iff_eq] at hslash
      rcases hslash with rfl | rfl <;> exact absurd hc (by decide)
    rintro (hslash | hstar)
    · exact absurd (hboundary '/' hslash) (by decide)
    · exact absurd (hboundary '*' hstar) (by decide)
  simp only [List.cons_append, List.append_assoc, List.nil_append, ratio?, hup, if_neg hhead, hlow]

end Numeral

end ApiSurface
