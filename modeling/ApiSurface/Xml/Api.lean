import ApiSurface.Model.Basic
import ApiSurface.Xml.Element

/-!
# An API as XML

Two descriptions of an API as an XML document. The full one shows every declaration with all its
attributes but the mark for generated members. The other one shows the parameters only: of each
type the constructors and methods that have parameters, with the names and types of those.
-/

namespace ApiSurface.Xml

/-! ## Attributes -/

/-- A truth value as an attribute value. -/
def flag (b : Bool) : String := if b then "true" else "false"

/-- A visibility as an attribute value, which is empty if there is none. -/
def visibilityText : Option Visibility → String
  | some v => v.word
  | none => ""

/-- The attributes at the end of a method or constructor. -/
def callableAttributes (c : Callable) : List (String × String) :=
  [("static", flag c.isStatic), ("final", flag c.isFinal),
    ("visibility", visibilityText c.visibility), ("deprecated", c.deprecated)]

/-- The attributes of a type. -/
def typeAttributes (h : TypeHead) : List (String × String) :=
  [("name", h.name)] ++ (h.kind.superclass?.map fun s => ("extends", s)).toList ++
    [("abstract", flag h.isAbstract), ("static", flag h.isStatic), ("final", flag h.isFinal),
      ("visibility", visibilityText h.visibility), ("deprecated", h.deprecated)]

/-! ## Elements -/

/-- A type parameter. -/
def typeParameter (p : TypeParameter) : Element :=
  .ofChildren "typeParameter" [("name", p.name)]
    (p.bounds.map fun bound => .leaf "bound" [("type", bound)])

/-- The list of type parameters, which is left out if it is empty. -/
def typeParameters (ps : List TypeParameter) : List Element :=
  if ps.isEmpty then [] else [.node "typeParameters" [] (ps.map typeParameter)]

/-- A parameter. -/
def parameter (p : Parameter) : Element := .leaf "parameter" [("name", p.name), ("type", p.type)]

/-- An exception. -/
def exception (e : Thrown) : Element :=
  .leaf "exception" [("name", e.simpleName), ("type", e.type)]

/-- What stands inside a method or constructor. -/
def callableChildren (c : Callable) : List Element :=
  typeParameters c.typeParameters ++ c.parameters.map parameter ++ c.exceptions.map exception

/-- A constructor. -/
def constructor (c : Constructor) : Element :=
  .ofChildren "constructor"
    ([("name", c.name), ("type", c.enclosingType)] ++ callableAttributes c.toCallable)
    (callableChildren c.toCallable)

/-- A method. -/
def method (m : Method) : Element :=
  .ofChildren "method"
    ([("name", m.name), ("return", m.returnType), ("abstract", flag m.isAbstract),
      ("native", flag m.isNative), ("synchronized", flag m.isSynchronized)] ++
      callableAttributes m.toCallable)
    (callableChildren m.toCallable)

/-- A field. -/
def field (f : Field) : Element :=
  .leaf "field"
    ([("name", f.name), ("type", f.type), ("static", flag f.isStatic), ("final", flag f.isFinal),
      ("volatile", flag f.isVolatile), ("transient", flag f.isTransient)] ++
      (f.value.map fun value => ("value", value)).toList ++
      [("visibility", visibilityText f.visibility), ("deprecated", f.deprecated)])

/-- A member; a nested type has no element. -/
def member? : Member → Option Element
  | .constructor c => some (constructor c)
  | .method m => some (method m)
  | .field f => some (field f)
  | .nested _ _ => none

/-! ## The full description -/

/-- A type with all its members. A type with members has content, even if all of them are types. -/
def fullType (t : TypeDecl) : Element :=
  if t.typeParameters.isEmpty && t.implements.isEmpty && t.members.isEmpty then
    .leaf t.kind.word (typeAttributes t.toTypeHead)
  else
    .node t.kind.word (typeAttributes t.toTypeHead)
      (typeParameters t.typeParameters ++
        (t.implements.map fun name => .leaf "implements" [("name", name)]) ++
        t.members.filterMap member?)

/-! ## The description of parameters -/

/-- The tag and the shared part of a method or constructor. -/
def callable? : Member → Option (String × Callable)
  | .constructor c => some ("constructor", c.toCallable)
  | .method m => some ("method", m.toCallable)
  | _ => none

/-- The methods and constructors of a type that have parameters. -/
def callablesWithParameters (t : TypeDecl) : List (String × Callable) :=
  (t.members.filterMap callable?).filter fun c => !c.2.parameters.isEmpty

/-- A type with the parameters of its methods and constructors. -/
def parametersType (t : TypeDecl) : Element :=
  .ofChildren t.kind.word [("name", t.name)]
    ((callablesWithParameters t).map fun c =>
      .node c.1 [("name", c.2.name)] (c.2.parameters.map parameter))

/-! ## Documents -/

/-- A package, each type described by `type`. -/
def package (type : TypeDecl → Element) (p : Package) : Element :=
  .ofChildren "package" [("name", p.name)] (p.types.map type)

/-- The API as a document, each type described by `type`. -/
def api (type : TypeDecl → Element) (a : Api) : String :=
  document (.ofChildren "api" [] (a.packages.map (package type)))

/-- The full description. -/
def full (a : Api) : String := api fullType a

/-- The description of parameters. -/
def parametersOnly (a : Api) : String := api parametersType a

end ApiSurface.Xml
