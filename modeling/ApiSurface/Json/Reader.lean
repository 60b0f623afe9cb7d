import ApiSurface.Json.Value
import ApiSurface.Text.Hex

/-!
# Reading JSON

`Json.read?` accepts the texts of the JSON grammar: one value with white space around it. A number
is checked but not evaluated, a pair of surrogate escapes is one character, and a surrogate escape
on its own is refused.
-/

namespace ApiSurface.Json

/-- The white space of the JSON grammar. -/
def isWhite (c : Char) : Bool := c == ' ' || c == '\t' || c == '\n' || c == '\r'

/-- The text without the white space in front. -/
def skipWhite (cs : List Char) : List Char := cs.dropWhile isWhite

/-! ## Texts -/

/-- The value of four hexadecimal digits, and the text behind them. -/
def unit? : List Char → Option (Nat × List Char)
  | a :: b :: c :: d :: rest =>
    (Text.hexNumber? 0 [a, b, c, d]).map fun n => (n, rest)
  | _ => none

/-- The character of an escape that needs one more character. -/
def shortEscape? : Char → Option Char
  | '"' => some '"'
  | '\\' => some '\\'
  | '/' => some '/'
  | 'b' => some '\x08'
  | 'f' => some '\x0c'
  | 'n' => some '\n'
  | 'r' => some '\r'
  | 't' => some '\t'
  | _ => none

/-- The character of an escape by code units, and the text behind it. -/
def unicodeEscape? (cs : List Char) : Option (Char × List Char) := do
  let (high, rest) ← unit? cs
  if 0xD800 ≤ high ∧ high < 0xDC00 then
    match rest with
    | '\\' :: 'u' :: rest =>
      let (low, rest) ← unit? rest
      if 0xDC00 ≤ low ∧ low < 0xE000 then
        return (Char.ofNat (0x10000 + (high - 0xD800) * 0x400 + (low - 0xDC00)), rest)
      else none
    | _ => none
  else if 0xDC00 ≤ high ∧ high < 0xE000 then none
  else return (Char.ofNat high, rest)

/-- Behind an escape by code units the text is shorter. -/
theorem length_lt_of_unicodeEscape? {cs rest : List Char} {c : Char}
    (h : unicodeEscape? cs = some (c, rest)) : rest.length < cs.length := by
  have key : ∀ {cs rest : List Char} {n : Nat}, unit? cs = some (n, rest) →
      rest.length < cs.length := by
    intro cs rest n h
    unfold unit? at h
    split at h
    · obtain ⟨_, _, he⟩ := Option.map_eq_some_iff.mp h
      simp only [Prod.mk.injEq] at he
      obtain ⟨-, rfl⟩ := he
      simp only [List.length_cons]
      omega
    · simp at h
  unfold unicodeEscape? at h
  simp only [Option.bind_eq_bind, Option.bind_eq_some_iff, Prod.exists] at h
  obtain ⟨high, rest', hu, h⟩ := h
  have h1 := key hu
  split at h
  · split at h
    · next rest'' =>
      simp only [Option.bind_eq_some_iff, Prod.exists] at h
      obtain ⟨low, rest3, hu2, h⟩ := h
      have h2 := key hu2
      split at h
      · simp only [Option.pure_def, Option.some.injEq, Prod.mk.injEq] at h
        obtain ⟨-, rfl⟩ := h
        simp only [List.length_cons] at h1
        omega
      · simp at h
    · simp at h
  · split at h
    · simp at h
    · simp only [Option.pure_def, Option.some.injEq, Prod.mk.injEq] at h
      obtain ⟨-, rfl⟩ := h
      omega

/-- The characters up to the closing quote, and the text behind it. The characters before are given
last first. -/
def textFrom? (cs before : List Char) : Option (List Char × List Char) :=
  match cs with
  | [] => none
  | '"' :: rest => some (before.reverse, rest)
  | '\\' :: 'u' :: rest =>
    match _h : unicodeEscape? rest with
    | some (c, after) => textFrom? after (c :: before)
    | none => none
  | '\\' :: e :: rest => (shortEscape? e).bind fun c => textFrom? rest (c :: before)
  | c :: rest => if c.toNat < 0x20 ∨ c = '\\' then none else textFrom? rest (c :: before)
termination_by cs.length
decreasing_by
  · have := length_lt_of_unicodeEscape? _h
    simp only [List.length_cons]
    omega
  all_goals simp only [List.length_cons]
  all_goals omega

/-- The text whose opening quote has been read, and what follows its closing quote. -/
def text? (cs : List Char) : Option (String × List Char) :=
  (textFrom? cs []).map fun (content, rest) => (String.ofList content, rest)

/-! ## Numbers -/

/-- At least one digit, and the text behind the digits. -/
def digits? (cs : List Char) : Option (List Char × List Char) :=
  let digits := cs.takeWhile Char.isDigit
  if digits.isEmpty then none else some (digits, cs.dropWhile Char.isDigit)

/-- A whole number without superfluous zeros in front. -/
def whole? : List Char → Option (List Char × List Char)
  | '0' :: rest => some (['0'], rest)
  | cs => digits? cs

/-- A fraction, which may be missing. -/
def fraction? : List Char → Option (List Char × List Char)
  | '.' :: rest => (digits? rest).map fun (ds, rest) => ('.' :: ds, rest)
  | cs => some ([], cs)

/-- An exponent, which may be missing. -/
def exponent? : List Char → Option (List Char × List Char)
  | [] => some ([], [])
  | e :: rest =>
    if e = 'e' ∨ e = 'E' then
      match rest with
      | [] => none
      | s :: rest' =>
        if s = '+' ∨ s = '-' then (digits? rest').map fun (ds, rest) => (e :: s :: ds, rest)
        else (digits? rest).map fun (ds, rest) => (e :: ds, rest)
    else some ([], e :: rest)

/-- A number as it is written, and the text behind it. -/
def number? (cs : List Char) : Option (String × List Char) := do
  let (sign, cs) := match cs with
    | '-' :: rest => (['-'], rest)
    | cs => ([], cs)
  let (whole, cs) ← whole? cs
  let (fraction, cs) ← fraction? cs
  let (exponent, cs) ← exponent? cs
  return (String.ofList (sign ++ whole ++ fraction ++ exponent), cs)

/-! ## Values -/

mutual

/-- The value at the front of a text, and the text behind it. The first argument bounds the number
of nested and neighbouring values. -/
def value? : Nat → List Char → Option (Json × List Char)
  | 0, _ => none
  | bound + 1, cs =>
    match skipWhite cs with
    | 'n' :: 'u' :: 'l' :: 'l' :: rest => some (null, rest)
    | 't' :: 'r' :: 'u' :: 'e' :: rest => some (bool true, rest)
    | 'f' :: 'a' :: 'l' :: 's' :: 'e' :: rest => some (bool false, rest)
    | '"' :: rest => (text? rest).map fun (text, rest) => (string text, rest)
    | '[' :: rest =>
      match skipWhite rest with
      | ']' :: rest => some (array [], rest)
      | rest => (items? bound rest).map fun (items, rest) => (array items, rest)
    | '\x7b' :: rest =>
      match skipWhite rest with
      | '\x7d' :: rest => some (object [], rest)
      | rest => (fields? bound rest).map fun (fields, rest) => (object fields, rest)
    | cs => (number? cs).map fun (spelling, rest) => (number spelling, rest)

/-- The items of a list up to its closing bracket. -/
def items? : Nat → List Char → Option (List Json × List Char)
  | 0, _ => none
  | bound + 1, cs => do
    let (item, cs) ← value? bound cs
    match skipWhite cs with
    | ',' :: rest => (items? bound rest).map fun (more, rest) => (item :: more, rest)
    | ']' :: rest => some ([item], rest)
    | _ => none

/-- The fields of an object up to its closing bracket. -/
def fields? : Nat → List Char → Option (List (String × Json) × List Char)
  | 0, _ => none
  | bound + 1, cs =>
    match skipWhite cs with
    | '"' :: rest => do
      let (key, cs) ← text? rest
      match skipWhite cs with
      | ':' :: rest => do
        let (value, cs) ← value? bound rest
        match skipWhite cs with
        | ',' :: rest =>
          (fields? bound rest).map fun (more, rest) => ((key, value) :: more, rest)
        | '\x7d' :: rest => some ([(key, value)], rest)
        | _ => none
      | _ => none
    | _ => none

end

/-- The value that a text is. A value takes at least one character of the text, and so does the
step from one value to the next, so twice the length of the text bounds both. -/
def read? (text : String) : Option Json :=
  let cs := text.toList
  match value? (2 * cs.length + 2) cs with
  | some (value, rest) => if (skipWhite rest).isEmpty then some value else none
  | none => none

end ApiSurface.Json
