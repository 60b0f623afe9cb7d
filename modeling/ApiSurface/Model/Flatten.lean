import ApiSurface.Model.Basic

/-!
# Lifting nested types

Flattening lists every type of a forest of declarations, a type before the types nested in it. A
nested type takes as its name the path from the outermost type, its names joined with points, and
its constructors take that name too. No listed type has a nested type among its members.
-/

namespace ApiSurface

namespace Member

/-- The member, with `name` as its name if it is a constructor. -/
def renameConstructor (name : String) : Member → Member
  | constructor c => constructor { c with name }
  | m => m

/-- The members of a body that are not types. -/
def withoutNested (members : List Member) : List Member :=
  members.filter fun m => !m.isNested

mutual

/-- The types that a member of the type `outer` declares, outer ones first. -/
def lifted (outer : String) : Member → List TypeDecl
  | nested head members =>
    let name := outer ++ "." ++ head.name
    { head with
      name
      members := (withoutNested members).map (renameConstructor name) } ::
        liftedAll name members
  | _ => []

/-- The types that the members of the type `outer` declare. -/
def liftedAll (outer : String) : List Member → List TypeDecl
  | [] => []
  | m :: more => lifted outer m ++ liftedAll outer more

end

end Member

namespace TypeDecl

/-- The type without its nested types, followed by those. -/
def flatten (t : TypeDecl) : List TypeDecl :=
  { t with members := Member.withoutNested t.members } :: Member.liftedAll t.name t.members

/-- The types of a list and all types nested in them. -/
def flattenAll (types : List TypeDecl) : List TypeDecl := types.flatMap flatten

end TypeDecl

end ApiSurface
