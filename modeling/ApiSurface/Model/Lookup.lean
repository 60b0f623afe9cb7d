import ApiSurface.Model.Basic

/-!
# Names and lookup

A type is named by the name of its package, a point, and its own name; in the unnamed package its
own name is all. Looking up a qualified name gives the first type, in the order of packages and
then of types, that has this name.
-/

namespace ApiSurface

namespace Package

/-- Whether this is the unnamed package. -/
def isUnnamed (p : Package) : Bool := p.name.isEmpty

/-- The qualified form of the name of a type of the package. -/
def qualify (p : Package) (typeName : String) : String :=
  if p.isUnnamed then typeName else p.name ++ "." ++ typeName

/-- The name of a type within the package, if the qualified name can belong to it. -/
def unqualify? (p : Package) (qualified : String) : Option String :=
  if p.isUnnamed then some qualified
  else (Text.afterStart? (p.name.toList ++ ['.']) qualified.toList).map String.ofList

/-- The first type of the package with the given name. -/
def find? (p : Package) (typeName : String) : Option TypeDecl :=
  p.types.find? fun t => t.name == typeName

end Package

namespace Api

/-- The package of the given name. -/
def package? (api : Api) (name : String) : Option Package :=
  api.packages.find? fun p => p.name == name

/-- The first type with the given qualified name. -/
def find? (api : Api) (qualified : String) : Option TypeDecl :=
  api.packages.findSome? fun p => (p.unqualify? qualified).bind p.find?

/-- How many types the packages hold. -/
def typeCount (api : Api) : Nat :=
  (api.packages.flatMap Package.types).length

end Api

end ApiSurface
