/-!
# JSON values

A JSON value as a tree. A number keeps its spelling, and an object keeps its fields in the order in
which they are written.
-/

namespace ApiSurface

/-- A JSON value. -/
inductive Json where
  | null
  | bool (value : Bool)
  | number (spelling : String)
  | string (text : String)
  | array (items : List Json)
  | object (fields : List (String × Json))

namespace Json

/-- The last field of the given name; a later field replaces an earlier one of its name. -/
def lastField? (name : String) : List (String × Json) → Option Json
  | [] => none
  | (key, value) :: more =>
    (lastField? name more).or (if key = name then some value else none)

/-- A text as a value, or null. -/
def optional : Option String → Json
  | some text => string text
  | none => null

/-- A list of texts as a value. -/
def strings (texts : List String) : Json := array (texts.map string)

/-- A natural number as a value. -/
def nat (n : Nat) : Json := number (toString n)

end Json

end ApiSurface
