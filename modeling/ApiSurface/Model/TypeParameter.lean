import ApiSurface.Model.Basic
import ApiSurface.Text.Blank

/-!
# Type parameters from their declaration text

The text `T extends A & B` declares the parameter `T` with the bounds `A` and `B`. Blanks around
the name and the bounds do not count, and an empty bound is none.
-/

namespace ApiSurface.TypeParameter

/-- The word between a parameter and its bounds, with the blanks that belong to it. -/
def boundWord : List Char := [' ', 'e', 'x', 't', 'e', 'n', 'd', 's', ' ']

/-- The mark between two bounds, with the blanks that belong to it. -/
def boundMark : List Char := [' ', '&', ' ']

/-- The parameter that a declaration text declares. -/
def ofDeclaration (text : String) : TypeParameter :=
  let cs := Text.trimmed text.toList
  match Text.splitFirst? boundWord cs with
  | some (name, bounds) =>
    { name := String.ofList (Text.trimmed name)
      bounds := (((Text.splitAll boundMark (by decide) bounds).map Text.trimmed).filter
        (!·.isEmpty)).map String.ofList }
  | none => { name := String.ofList cs, bounds := [] }

end ApiSurface.TypeParameter
