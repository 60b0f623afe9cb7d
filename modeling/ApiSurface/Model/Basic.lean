import ApiSurface.Text.Split

/-!
# The model of an API surface

An API is a list of packages, a package a list of type declarations, and a type declaration has a
head (what is said before its body) and members. A member may be a nested type; after
normalisation none is left, and the name of a type is then its dotted path from the outermost
type.

Types are kept as the text of their declaration, and initialisers as written.
-/

namespace ApiSurface

/-! ## Access, deprecation and type parameters -/

/-- Who may use a declaration beside its own package. A declaration without a visibility is open
to its package alone. -/
inductive Visibility where
  | publicAccess
  | protectedAccess
deriving DecidableEq, Repr

namespace Visibility

/-- The keyword for a visibility. -/
def word : Visibility → String
  | publicAccess => "public"
  | protectedAccess => "protected"

/-- The visibility that a keyword gives. -/
def ofWord? (text : String) : Option Visibility :=
  if text = "public" then some publicAccess
  else if text = "protected" then some protectedAccess
  else none

/-- The keyword for a visibility gives that visibility. -/
theorem ofWord?_word (v : Visibility) : ofWord? v.word = some v := by
  cases v <;> decide

end Visibility

/-- The deprecation text of a declaration that is not deprecated. -/
def notDeprecated : String := "not deprecated"

/-- The deprecation text of a declaration that is. -/
def deprecatedMark : String := "Deprecated"

/-- Every text but the one for "not deprecated" marks a deprecated declaration. -/
def isDeprecated (text : String) : Bool := text != notDeprecated

/-- A type parameter and its upper bounds in the order in which they are written. -/
structure TypeParameter where
  name : String
  bounds : List String
deriving DecidableEq, Repr

/-! ## Members -/

/-- A parameter of a method or constructor. -/
structure Parameter where
  name : String
  type : String
deriving DecidableEq, Repr

/-- An exception that a method or constructor may throw. -/
structure Thrown where
  type : String
deriving DecidableEq, Repr

/-- The name of the exception without its package and type arguments. -/
def Thrown.simpleName (e : Thrown) : String :=
  String.ofList (Text.afterLast '.' (e.type.toList.takeWhile (· != '<')))

/-- A field. Its value is the initialiser as written, if that is a single literal. -/
structure Field where
  name : String
  type : String
  value : Option String := none
  isStatic : Bool := false
  isFinal : Bool := false
  isVolatile : Bool := false
  isTransient : Bool := false
  visibility : Option Visibility := none
  deprecated : String := notDeprecated
deriving DecidableEq, Repr

/-- What methods and constructors have in common. -/
structure Callable where
  name : String
  visibility : Option Visibility := none
  isStatic : Bool := false
  isFinal : Bool := false
  parameters : List Parameter := []
  exceptions : List Thrown := []
  typeParameters : List TypeParameter := []
  deprecated : String := notDeprecated
  isSynthetic : Bool := false
deriving DecidableEq, Repr

/-- A method. -/
structure Method extends Callable where
  returnType : String
  isAbstract : Bool := false
  isNative : Bool := false
  isSynchronized : Bool := false
deriving DecidableEq, Repr

/-- A constructor, with the name of the type it belongs to: the simple name in a source, the
qualified name once it is bound. -/
structure Constructor extends Callable where
  enclosingType : String
deriving DecidableEq, Repr

/-! ## Types, packages and the whole API -/

/-- A class, which has one superclass, or an interface. Enumerations are classes and annotation
types are interfaces. -/
inductive TypeKind where
  | classKind (superclass : String)
  | interfaceKind
deriving DecidableEq, Repr

/-- The superclass of a class that names none. -/
def defaultSuperclass : String := "java.lang.Object"

/-- The superclass of an enumeration. -/
def enumSuperclass : String := "java.lang.Enum"

/-- What a type declaration says apart from its members. -/
structure TypeHead where
  kind : TypeKind
  name : String
  visibility : Option Visibility := none
  isAbstract : Bool := false
  isStatic : Bool := false
  isFinal : Bool := false
  deprecated : String := notDeprecated
  typeParameters : List TypeParameter := []
  implements : List String := []
deriving DecidableEq, Repr

/-- A member of a type. -/
inductive Member where
  | field (declaration : Field)
  | method (declaration : Method)
  | constructor (declaration : Constructor)
  | nested (head : TypeHead) (members : List Member)

mutual

/-- Whether two members are equal, and with nested types all that is inside them. -/
def Member.decEq : (m n : Member) → Decidable (m = n)
  | field f, field g => decidable_of_iff (f = g) (by simp)
  | method f, method g => decidable_of_iff (f = g) (by simp)
  | constructor f, constructor g => decidable_of_iff (f = g) (by simp)
  | nested head members, nested head' members' =>
    match Member.decEqAll members members' with
    | isTrue h => decidable_of_iff (head = head') (by simp [h])
    | isFalse h => isFalse (by simp [h])
  | field _, method _ | field _, constructor _ | field _, nested _ _
  | method _, field _ | method _, constructor _ | method _, nested _ _
  | constructor _, field _ | constructor _, method _ | constructor _, nested _ _
  | nested _ _, field _ | nested _ _, method _ | nested _ _, constructor _ => isFalse (by simp)

/-- Whether two bodies are equal. -/
def Member.decEqAll : (members members' : List Member) → Decidable (members = members')
  | [], [] => isTrue rfl
  | [], _ :: _ | _ :: _, [] => isFalse (by simp)
  | m :: more, m' :: more' =>
    match Member.decEq m m', Member.decEqAll more more' with
    | isTrue h, isTrue h' => isTrue (by rw [h, h'])
    | isFalse h, _ => isFalse (by simp [h])
    | _, isFalse h => isFalse (by simp [h])

end

instance : DecidableEq Member := Member.decEq

/-- A type declaration. -/
structure TypeDecl extends TypeHead where
  members : List Member := []
deriving DecidableEq

/-- A package; the unnamed one has the empty name. -/
structure Package where
  name : String
  types : List TypeDecl := []
deriving DecidableEq

/-- A whole API. -/
structure Api where
  packages : List Package := []
deriving DecidableEq

/-- What one source file declares. -/
structure CompileUnit where
  package : Package
  imports : List String
deriving DecidableEq

namespace Member

/-- The name of a member. -/
def name : Member → String
  | field f => f.name
  | method m => m.name
  | constructor c => c.name
  | nested head _ => head.name

/-- Whether a member is a nested type. -/
def isNested : Member → Bool
  | nested _ _ => true
  | _ => false

/-- A type declaration as a member of another. -/
def ofType (t : TypeDecl) : Member := nested t.toTypeHead t.members

/-- The type declaration of a nested type. -/
def type? : Member → Option TypeDecl
  | nested head members => some { head with members }
  | _ => none

/-- The constructor, if the member is one. -/
def constructor? : Member → Option Constructor
  | constructor c => some c
  | _ => none

/-- The method, if the member is one. -/
def method? : Member → Option Method
  | method m => some m
  | _ => none

/-- The field, if the member is one. -/
def field? : Member → Option Field
  | field f => some f
  | _ => none

/-- A type declaration taken as a member gives the declaration back. -/
@[simp] theorem type?_ofType (t : TypeDecl) : (ofType t).type? = some t := rfl

end Member

namespace TypeKind

/-- The word for the kind. -/
def word : TypeKind → String
  | classKind _ => "class"
  | interfaceKind => "interface"

/-- The superclass, which only a class has. -/
def superclass? : TypeKind → Option String
  | classKind superclass => some superclass
  | interfaceKind => none

end TypeKind

namespace TypeDecl

/-- The fields, in the order of the body. -/
def fields (t : TypeDecl) : List Field := t.members.filterMap Member.field?

/-- The methods, in the order of the body. -/
def methods (t : TypeDecl) : List Method := t.members.filterMap Member.method?

/-- The constructors, in the order of the body. -/
def constructors (t : TypeDecl) : List Constructor := t.members.filterMap Member.constructor?

/-- The types nested directly in this one, in the order of the body. -/
def nestedTypes (t : TypeDecl) : List TypeDecl := t.members.filterMap Member.type?

/-- Whether some member is a nested type. -/
def hasNested (t : TypeDecl) : Bool := t.members.any Member.isNested

end TypeDecl

end ApiSurface
