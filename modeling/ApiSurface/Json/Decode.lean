import ApiSurface.Json.Value

/-!
# Taking JSON values apart

Small decoders for texts, truth values, lists and records. A record is an object, whose unknown
fields are passed over, or the list of its values in the order of its fields.
-/

namespace ApiSurface.Json

/-- A text. -/
def string? : Json → Option String
  | string text => some text
  | _ => none

/-- A truth value. -/
def bool? : Json → Option Bool
  | bool value => some value
  | _ => none

/-- A natural number of at most 64 bits, written in digits only. -/
def nat? : Json → Option Nat
  | number spelling =>
    let cs := spelling.toList
    if cs.all Char.isDigit then
      let n := cs.foldl (fun n c => 10 * n + (c.toNat - 48)) 0
      if n ≤ 0xFFFFFFFFFFFFFFFF then some n else none
    else none
  | _ => none

/-- A list of values of one form. -/
def list? {α : Type} (item? : Json → Option α) : Json → Option (List α)
  | array items => items.mapM item?
  | _ => none

/-- A value of the given form, or null for none. -/
def nullable? {α : Type} (value? : Json → Option α) : Json → Option (Option α)
  | null => some none
  | v => (value? v).map some

/-- A choice among names, given as a text or as an object whose only field has the name and the
value null. -/
def name? : Json → Option String
  | string text => some text
  | object [(name, null)] => some name
  | _ => none

/-- The fields of a record with the given field names, of which a list must give at least the first
`least`. -/
def record? (names : List String) (least : Nat) : Json → Option (List (String × Json))
  | object fields => some fields
  | array items =>
    if least ≤ items.length ∧ items.length ≤ names.length then some (names.zip items) else none
  | _ => none

/-- A field that must be there. -/
def required? {α : Type} (fields : List (String × Json)) (name : String)
    (value? : Json → Option α) : Option α :=
  (lastField? name fields).bind value?

/-- A field that may be null or missing. -/
def optional? {α : Type} (fields : List (String × Json)) (name : String)
    (value? : Json → Option α) : Option (Option α) :=
  match lastField? name fields with
  | none => some none
  | some v => nullable? value? v

/-- A field that takes a default value where it is missing. -/
def defaulted? {α : Type} (fields : List (String × Json)) (name : String)
    (value? : Json → Option α) (default : α) : Option α :=
  match lastField? name fields with
  | none => some default
  | some v => value? v

/-- A field of an object is smaller than the object. -/
theorem sizeOf_lt_of_lastField? {name : String} {fields : List (String × Json)} {value : Json}
    (h : lastField? name fields = some value) : sizeOf value < sizeOf fields := by
  induction fields with
  | nil => simp [lastField?] at h
  | cons head more ih =>
    obtain ⟨key, v⟩ := head
    simp only [lastField?] at h
    cases hm : lastField? name more with
    | some w =>
      rw [hm, Option.some_or, Option.some.injEq] at h
      subst h
      have := ih hm
      simp only [List.cons.sizeOf_spec, Prod.mk.sizeOf_spec]
      omega
    | none =>
      rw [hm, Option.none_or] at h
      split at h
      · simp only [Option.some.injEq] at h
        subst h
        simp only [List.cons.sizeOf_spec, Prod.mk.sizeOf_spec]
        omega
      · simp at h

end ApiSurface.Json
