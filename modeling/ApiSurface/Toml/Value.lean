/-!
# TOML values

The values of a TOML document that holds texts, truth values, lists and tables. A table remembers
how it came about, because that decides whether a later line may add to it.
-/

namespace ApiSurface.Toml

/-- How a table came about. -/
inductive Origin where
  /-- Written between braces. -/
  | inline
  /-- Named by a dotted key. -/
  | dotted
  /-- On the way to a table with a header. -/
  | implied
  /-- Opened by a header of its own. -/
  | stated
deriving DecidableEq, Repr

/-- A value. -/
inductive Value where
  | text (content : String)
  | flag (value : Bool)
  | list (items : List Value)
  | table (origin : Origin) (fields : List (String × Value))

/-- The fields of a table, in the order of their first mention; no two have the same key. -/
abbrev Fields := List (String × Value)

namespace Fields

/-- The value of a key. -/
def get? (fields : Fields) (key : String) : Option Value :=
  (fields.find? fun field => field.1 == key).map Prod.snd

/-- The fields with another value for a key that is there. -/
def set (fields : Fields) (key : String) (value : Value) : Fields :=
  fields.map fun field => if field.1 == key then (key, value) else field

/-- The fields with a value for a dotted key. A table that a dotted key names may be named again, but
neither a value nor a table with a header may be given a second time. -/
def put (value : Value) : List String → Fields → Option Fields
  | [], _ => none
  | [key], fields =>
    match fields.get? key with
    | none => some (fields ++ [(key, value)])
    | some _ => none
  | key :: path, fields =>
    match fields.get? key with
    | none => (put value path []).map fun inner => fields ++ [(key, .table .dotted inner)]
    | some (.table .dotted inner) =>
      (put value path inner).map fun inner => fields.set key (.table .dotted inner)
    | some _ => none

/-- The fields with the table of a header opened. Each table can be opened once, and a table between
braces is closed. -/
def openTable : List String → Fields → Option Fields
  | [], _ => none
  | [key], fields =>
    match fields.get? key with
    | none => some (fields ++ [(key, .table .stated [])])
    | some (.table .implied inner) => some (fields.set key (.table .stated inner))
    | some _ => none
  | key :: path, fields =>
    match fields.get? key with
    | none => (openTable path []).map fun inner => fields ++ [(key, .table .implied inner)]
    | some (.table .inline _) => none
    | some (.table origin inner) =>
      (openTable path inner).map fun inner => fields.set key (.table origin inner)
    | some _ => none

/-- The fields with the table at the given path changed. -/
def within (change : Fields → Option Fields) : List String → Fields → Option Fields
  | [], fields => change fields
  | key :: path, fields =>
    match fields.get? key with
    | some (.table origin inner) =>
      (within change path inner).map fun inner => fields.set key (.table origin inner)
    | _ => none

end Fields

end ApiSurface.Toml
