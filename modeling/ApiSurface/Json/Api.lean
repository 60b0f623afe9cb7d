import ApiSurface.Json.Decode
import ApiSurface.Json.Printer
import ApiSurface.Model.Basic

/-!
# An API as JSON

Every declaration is an object with its fields in a fixed order. A type says first whether it is a
class, which also names its superclass, or an interface; a member says first which kind of member
it is. Bounds of a type parameter are left out if there are none.
-/

namespace ApiSurface

open Json

/-! ## Parts of declarations -/

namespace Visibility

/-- A visibility as JSON; null if there is none. -/
def toJson : Option Visibility → Json
  | some v => .string v.word
  | none => .null

/-- The visibility that a value names. -/
def ofJson? (v : Json) : Option Visibility := v.name?.bind ofWord?

end Visibility

namespace TypeParameter

/-- A type parameter as JSON. -/
def toJson (p : TypeParameter) : Json :=
  .object (("name", .string p.name) ::
    if p.bounds.isEmpty then [] else [("bounds", .strings p.bounds)])

/-- The type parameter that a value describes. -/
def ofJson? (v : Json) : Option TypeParameter := do
  let fields ← v.record? ["name", "bounds"] 1
  let name ← required? fields "name" string?
  let bounds ← defaulted? fields "bounds" (list? string?) []
  return { name, bounds }

end TypeParameter

namespace Parameter

/-- A parameter as JSON. -/
def toJson (p : Parameter) : Json :=
  .object [("name", .string p.name), ("type", .string p.type)]

/-- The parameter that a value describes. -/
def ofJson? (v : Json) : Option Parameter := do
  let fields ← v.record? ["name", "type"] 2
  let name ← required? fields "name" string?
  let type ← required? fields "type" string?
  return { name, type }

end Parameter

namespace Thrown

/-- An exception as JSON. -/
def toJson (e : Thrown) : Json := .object [("type", .string e.type)]

/-- The exception that a value describes. -/
def ofJson? (v : Json) : Option Thrown := do
  let fields ← v.record? ["type"] 1
  let type ← required? fields "type" string?
  return { type }

end Thrown

/-! ## Members -/

namespace Field

/-- The fields of a field declaration, in order. -/
def toFields (f : Field) : List (String × Json) :=
  [("name", .string f.name), ("type", .string f.type), ("value", .optional f.value),
    ("is_static", .bool f.isStatic), ("is_final", .bool f.isFinal),
    ("is_volatile", .bool f.isVolatile), ("is_transient", .bool f.isTransient),
    ("visibility", Visibility.toJson f.visibility), ("deprecated", .string f.deprecated)]

/-- The field declaration with the given fields. -/
def ofFields? (fields : List (String × Json)) : Option Field := do
  let name ← required? fields "name" string?
  let type ← required? fields "type" string?
  let value ← optional? fields "value" string?
  let isStatic ← required? fields "is_static" bool?
  let isFinal ← required? fields "is_final" bool?
  let isVolatile ← required? fields "is_volatile" bool?
  let isTransient ← required? fields "is_transient" bool?
  let visibility ← optional? fields "visibility" Visibility.ofJson?
  let deprecated ← required? fields "deprecated" string?
  return { name, type, value, isStatic, isFinal, isVolatile, isTransient, visibility, deprecated }

/-- The names of the fields of a field declaration, in order. -/
def fieldNames : List String :=
  ["name", "type", "value", "is_static", "is_final", "is_volatile", "is_transient", "visibility",
    "deprecated"]

end Field

namespace Callable

/-- The fields that methods and constructors share, in order. -/
def toFields (c : Callable) : List (String × Json) :=
  [("name", .string c.name), ("visibility", Visibility.toJson c.visibility),
    ("is_static", .bool c.isStatic), ("is_final", .bool c.isFinal),
    ("parameters", .array (c.parameters.map Parameter.toJson)),
    ("exceptions", .array (c.exceptions.map Thrown.toJson)),
    ("type_parameters", .array (c.typeParameters.map TypeParameter.toJson)),
    ("deprecated", .string c.deprecated), ("is_synthetic", .bool c.isSynthetic)]

/-- What methods and constructors share, from the given fields. -/
def ofFields? (fields : List (String × Json)) : Option Callable := do
  let name ← required? fields "name" string?
  let visibility ← optional? fields "visibility" Visibility.ofJson?
  let isStatic ← required? fields "is_static" bool?
  let isFinal ← required? fields "is_final" bool?
  let parameters ← required? fields "parameters" (list? Parameter.ofJson?)
  let exceptions ← required? fields "exceptions" (list? Thrown.ofJson?)
  let typeParameters ← required? fields "type_parameters" (list? TypeParameter.ofJson?)
  let deprecated ← required? fields "deprecated" string?
  let isSynthetic ← required? fields "is_synthetic" bool?
  return { name, visibility, isStatic, isFinal, parameters, exceptions, typeParameters, deprecated,
           isSynthetic }

end Callable

namespace Method

/-- The fields of a method, in order. -/
def toFields (m : Method) : List (String × Json) :=
  m.toCallable.toFields ++
    [("return_type", .string m.returnType), ("is_abstract", .bool m.isAbstract),
      ("is_native", .bool m.isNative), ("is_synchronized", .bool m.isSynchronized)]

/-- The method with the given fields. -/
def ofFields? (fields : List (String × Json)) : Option Method := do
  let callable ← Callable.ofFields? fields
  let returnType ← required? fields "return_type" string?
  let isAbstract ← required? fields "is_abstract" bool?
  let isNative ← required? fields "is_native" bool?
  let isSynchronized ← required? fields "is_synchronized" bool?
  return { callable with returnType, isAbstract, isNative, isSynchronized }

end Method

namespace Constructor

/-- The fields of a constructor, in order. -/
def toFields (c : Constructor) : List (String × Json) :=
  c.toCallable.toFields ++ [("enclosing_type_name", .string c.enclosingType)]

/-- The constructor with the given fields. -/
def ofFields? (fields : List (String × Json)) : Option Constructor := do
  let callable ← Callable.ofFields? fields
  let enclosingType ← required? fields "enclosing_type_name" string?
  return { callable with enclosingType }

end Constructor

namespace TypeKind

/-- The fields that say which kind of type it is. -/
def toFields : TypeKind → List (String × Json)
  | classKind superclass => [("kind", .string "class"), ("extends", .string superclass)]
  | interfaceKind => [("kind", .string "interface")]

/-- The kind of type that the fields say. -/
def ofFields? (fields : List (String × Json)) : Option TypeKind := do
  let word ← required? fields "kind" string?
  if word = "class" then
    return classKind (← required? fields "extends" string?)
  else if word = "interface" then
    return interfaceKind
  else none

end TypeKind

namespace TypeHead

/-- The fields of a type before its members, in order. -/
def toFields (h : TypeHead) : List (String × Json) :=
  h.kind.toFields ++
    [("name", .string h.name), ("visibility", Visibility.toJson h.visibility),
      ("is_abstract", .bool h.isAbstract), ("is_static", .bool h.isStatic),
      ("is_final", .bool h.isFinal), ("deprecated", .string h.deprecated),
      ("type_parameters", .array (h.typeParameters.map TypeParameter.toJson)),
      ("implements", .strings h.implements)]

/-- The head of the type with the given fields. -/
def ofFields? (fields : List (String × Json)) : Option TypeHead := do
  let kind ← TypeKind.ofFields? fields
  let name ← required? fields "name" string?
  let visibility ← optional? fields "visibility" Visibility.ofJson?
  let isAbstract ← required? fields "is_abstract" bool?
  let isStatic ← required? fields "is_static" bool?
  let isFinal ← required? fields "is_final" bool?
  let deprecated ← required? fields "deprecated" string?
  let typeParameters ← required? fields "type_parameters" (list? TypeParameter.ofJson?)
  let implements ← required? fields "implements" (list? string?)
  return { kind, name, visibility, isAbstract, isStatic, isFinal, deprecated, typeParameters,
           implements }

end TypeHead

namespace Member

mutual

/-- A member as JSON. -/
def toJson : Member → Json
  | field f => .object (("member", .string "field") :: f.toFields)
  | method m => .object (("member", .string "method") :: m.toFields)
  | constructor c => .object (("member", .string "constructor") :: c.toFields)
  | nested head members =>
    .object (("member", .string "nested_type") ::
      (head.toFields ++ [("members", .array (toJsonAll members))]))

/-- Members as JSON. -/
def toJsonAll : List Member → List Json
  | [] => []
  | m :: more => m.toJson :: toJsonAll more

end

mutual

/-- The member that a value describes. -/
def ofJson? (v : Json) : Option Member :=
  match v with
  | .object fields =>
    match lastField? "member" fields with
    | some (.string "field") => (Field.ofFields? fields).map field
    | some (.string "method") => (Method.ofFields? fields).map method
    | some (.string "constructor") => (Constructor.ofFields? fields).map constructor
    | some (.string "nested_type") =>
      match _h : lastField? "members" fields with
      | some (.array items) => do
        let head ← TypeHead.ofFields? fields
        let members ← ofJsonAll? items
        return nested head members
      | _ => none
    | _ => none
  | .array (.string "field" :: items) => do
    let fields ← record? Field.fieldNames Field.fieldNames.length (.array items)
    return field (← Field.ofFields? fields)
  | _ => none
termination_by sizeOf v
decreasing_by
  have := sizeOf_lt_of_lastField? _h
  simp only [Json.array.sizeOf_spec] at this
  simp only [Json.object.sizeOf_spec]
  omega

/-- The members that values describe. -/
def ofJsonAll? (items : List Json) : Option (List Member) :=
  match items with
  | [] => some []
  | item :: more => do
    let m ← ofJson? item
    let ms ← ofJsonAll? more
    return m :: ms
termination_by sizeOf items
decreasing_by
  all_goals simp only [List.cons.sizeOf_spec]
  all_goals omega

end

end Member

/-! ## Types, packages and APIs -/

namespace TypeDecl

/-- A type as JSON. -/
def toJson (t : TypeDecl) : Json :=
  .object (t.toTypeHead.toFields ++ [("members", .array (Member.toJsonAll t.members))])

/-- The type that a value describes. -/
def ofJson? : Json → Option TypeDecl
  | .object fields => do
    let head ← TypeHead.ofFields? fields
    let members ← required? fields "members" fun
      | .array items => Member.ofJsonAll? items
      | _ => none
    return { head with members }
  | _ => none

end TypeDecl

namespace Package

/-- A package as JSON. -/
def toJson (p : Package) : Json :=
  .object [("name", .string p.name), ("types", .array (p.types.map TypeDecl.toJson))]

/-- The package that a value describes. -/
def ofJson? (v : Json) : Option Package := do
  let fields ← v.record? ["name", "types"] 2
  let name ← required? fields "name" string?
  let types ← required? fields "types" (list? TypeDecl.ofJson?)
  return { name, types }

end Package

namespace Api

/-- An API as JSON. -/
def toJson (api : Api) : Json :=
  .object [("packages", .array (api.packages.map Package.toJson))]

/-- The API that a value describes. -/
def ofJson? (v : Json) : Option Api := do
  let fields ← v.record? ["packages"] 1
  let packages ← required? fields "packages" (list? Package.ofJson?)
  return { packages }

end Api

end ApiSurface
