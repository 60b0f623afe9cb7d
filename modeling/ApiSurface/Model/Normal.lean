import ApiSurface.Model.Flatten
import ApiSurface.Model.Lookup
import ApiSurface.Model.Merge

/-!
# Normal form of an API

An API is brought to its normal form in four steps: the packages are merged by name, nested types
are lifted, every constructor is bound to the qualified name of its type, and packages and types
are sorted by name. The order of names is the order of their characters by code point, and
sorting keeps the order of equal names.
-/

namespace ApiSurface

namespace Member

/-- The member, belonging to the type `qualified` if it is a constructor. -/
def bindConstructor (qualified : String) : Member → Member
  | constructor c => constructor { c with enclosingType := qualified }
  | m => m

end Member

namespace Package

/-- The package with all types lifted. -/
def flatten (p : Package) : Package := { p with types := TypeDecl.flattenAll p.types }

/-- The package with every constructor bound to the qualified name of its type. -/
def bindConstructors (p : Package) : Package :=
  { p with
    types := p.types.map fun t =>
      { t with members := t.members.map (Member.bindConstructor (p.qualify t.name)) } }

/-- The package with its types in the order of their names. -/
def sortTypes (p : Package) : Package :=
  { p with types := p.types.mergeSort fun s t => decide (s.name ≤ t.name) }

end Package

namespace Api

/-- The API with a function applied to every package. -/
def mapPackages (f : Package → Package) (api : Api) : Api := ⟨api.packages.map f⟩

/-- The API with packages, and the types of each package, in the order of their names. -/
def sort (api : Api) : Api :=
  ⟨(api.packages.mergeSort fun p q => decide (p.name ≤ q.name)).map Package.sortTypes⟩

/-- The normal form of the API made of package fragments. -/
def normalize (fragments : List Package) : Api :=
  ((ofFragments fragments).mapPackages fun p => p.flatten.bindConstructors).sort

end Api

end ApiSurface
