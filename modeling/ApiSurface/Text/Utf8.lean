/-!
# UTF-8

The first byte of a character says how many bytes follow and in which range the first of those must
lie. `decode` refuses bytes that are no text, and says where and how; `decodeLossy` puts the
replacement character in the place of every broken part.
-/

namespace ApiSurface.Text.Utf8

/-! ## One character -/

/-- What the first byte of a character of several bytes says: how many bytes follow, the range of the
next byte, and its own share of the character. -/
structure Lead where
  followers : Nat
  least : Nat
  greatest : Nat
  share : Nat
deriving DecidableEq, Repr

/-- The meaning of a first byte, if it can be one. -/
def lead? (b : Nat) : Option Lead :=
  if b < 0xC2 then none
  else if b ≤ 0xDF then some ⟨1, 0x80, 0xBF, b - 0xC0⟩
  else if b = 0xE0 then some ⟨2, 0xA0, 0xBF, 0⟩
  else if b = 0xED then some ⟨2, 0x80, 0x9F, 0xD⟩
  else if b ≤ 0xEF then some ⟨2, 0x80, 0xBF, b - 0xE0⟩
  else if b = 0xF0 then some ⟨3, 0x90, 0xBF, 0⟩
  else if b ≤ 0xF3 then some ⟨3, 0x80, 0xBF, b - 0xF0⟩
  else if b = 0xF4 then some ⟨3, 0x80, 0x8F, 4⟩
  else none

/-- What the front of a list of bytes is: a character, a broken part of the given number of bytes, or
a part of a character at the end of the list. -/
inductive Front where
  | character (c : Char) (rest : List UInt8)
  | broken (width : Nat) (rest : List UInt8)
  | cut
deriving DecidableEq, Repr

/-- Reads the bytes that follow a first byte, of which `count` are missing and `width` bytes with the
given value have been read. -/
def follow : (count least greatest width value : Nat) → List UInt8 → Front
  | 0, _, _, _, value, rest => .character (Char.ofNat value) rest
  | _ + 1, _, _, _, _, [] => .cut
  | count + 1, least, greatest, width, value, b :: rest =>
    if least ≤ b.toNat ∧ b.toNat ≤ greatest then
      follow count 0x80 0xBF (width + 1) (value * 64 + (b.toNat - 0x80)) rest
    else .broken width (b :: rest)

/-- What stands at the front of `b :: rest`. -/
def front (b : UInt8) (rest : List UInt8) : Front :=
  if b.toNat < 0x80 then .character (Char.ofNat b.toNat) rest
  else
    match lead? b.toNat with
    | some lead => follow lead.followers lead.least lead.greatest 1 lead.share rest
    | none => .broken 1 rest

/-- What is left behind the front, if anything is. -/
def Front.rest? : Front → Option (List UInt8)
  | character _ rest => some rest
  | broken _ rest => some rest
  | cut => none

/-- What is left behind a character is no longer than what was left in it, so that decoding ends. -/
theorem follow_rest_length {count least greatest width value : Nat} {bytes rest : List UInt8}
    (h : (follow count least greatest width value bytes).rest? = some rest) :
    rest.length ≤ bytes.length := by
  induction count generalizing least greatest width value bytes with
  | zero =>
    simp only [follow, Front.rest?, Option.some.injEq] at h
    simp [h]
  | succ count ih =>
    cases bytes with
    | nil => simp [follow, Front.rest?] at h
    | cons b more =>
      simp only [follow] at h
      split at h
      · have := ih h
        simp only [List.length_cons]
        omega
      · simp only [Front.rest?, Option.some.injEq] at h
        simp [← h]

/-- Behind the front there are fewer bytes. -/
theorem front_rest_length {b : UInt8} {bytes rest : List UInt8}
    (h : (front b bytes).rest? = some rest) : rest.length < (b :: bytes).length := by
  have key : rest.length ≤ bytes.length := by
    unfold front at h
    split at h
    · simp only [Front.rest?, Option.some.injEq] at h
      simp [h]
    · split at h
      · exact follow_rest_length h
      · simp only [Front.rest?, Option.some.injEq] at h
        simp [h]
  simp only [List.length_cons]
  omega

/-! ## Whole texts -/

/-- Why bytes are no text: the index of the first byte that belongs to no character, and how many
bytes are broken there; no number if the bytes end inside a character. -/
structure Fault where
  index : Nat
  width : Option Nat
deriving DecidableEq, Repr

/-- The fault in words. -/
def Fault.message (f : Fault) : String :=
  match f.width with
  | some width =>
    "invalid utf-8 sequence of " ++ toString width ++ " bytes from index " ++ toString f.index
  | none => "incomplete utf-8 byte sequence from index " ++ toString f.index

/-- Decodes the bytes from the given index on, behind the given characters, last first. -/
def decodeFrom (index : Nat) (bytes : List UInt8) (before : List Char) :
    Except Fault (List Char) :=
  match bytes with
  | [] => .ok before.reverse
  | b :: more =>
    match h : front b more with
    | .character c rest =>
      have : rest.length < (b :: more).length := front_rest_length (by rw [h]; rfl)
      decodeFrom (index + c.utf8Size) rest (c :: before)
    | .broken width _ => .error ⟨index, some width⟩
    | .cut => .error ⟨index, none⟩
termination_by bytes.length
decreasing_by exact this

/-- Decodes bytes, with the replacement character for every broken part. -/
def decodeLossyFrom (bytes : List UInt8) (before : List Char) : List Char :=
  match bytes with
  | [] => before.reverse
  | b :: more =>
    match h : front b more with
    | .character c rest =>
      have : rest.length < (b :: more).length := front_rest_length (by rw [h]; rfl)
      decodeLossyFrom rest (c :: before)
    | .broken _ rest =>
      have : rest.length < (b :: more).length := front_rest_length (by rw [h]; rfl)
      decodeLossyFrom rest ('\uFFFD' :: before)
    | .cut => ('\uFFFD' :: before).reverse
termination_by bytes.length
decreasing_by all_goals exact this

/-- The text that the bytes are. -/
def decode (bytes : ByteArray) : Except Fault String :=
  (decodeFrom 0 bytes.data.toList []).map String.ofList

/-- The text that the bytes are, as far as they are one. -/
def decodeLossy (bytes : ByteArray) : String :=
  String.ofList (decodeLossyFrom bytes.data.toList [])

end ApiSurface.Text.Utf8
