import ApiSurface.Model.Basic

/-!
# Merging packages by name

A package joins the one of the same name, its types behind the types already there, or else is put
last. Merging fragments therefore lists each package once, in the order in which the names first
occur.
-/

namespace ApiSurface

/-- The packages with `p` added to them. -/
def mergeInto : List Package → Package → List Package
  | [], p => [p]
  | q :: more, p =>
    if q.name = p.name then { q with types := q.types ++ p.types } :: more
    else q :: mergeInto more p

namespace Api

/-- The API with a package added to it. -/
def merge (api : Api) (p : Package) : Api := ⟨mergeInto api.packages p⟩

/-- The API made of package fragments, taken in order. -/
def ofFragments (fragments : List Package) : Api := fragments.foldl merge {}

end Api

end ApiSurface
