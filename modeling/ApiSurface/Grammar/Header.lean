import ApiSurface.Grammar.Noise
import ApiSurface.Grammar.TypeRef
import ApiSurface.Model.TypeParameter

/-!
# What stands in front of a declaration

Annotations, modifier keywords and lists of type parameters stand in front of a declaration in any
order. The keywords and the parameter texts go into one list of modifiers; a parameter is told
from a keyword by its spelling, and counts as one only if its text has a point or an angle bracket.
-/

namespace ApiSurface

/-! ## Headers -/

/-- The annotations and modifiers in front of a declaration, each in the order of the source. -/
structure Header where
  annotations : List String := []
  modifiers : List String := []
deriving DecidableEq, Repr

/-- Whether an entry of the modifiers declares a type parameter. -/
def isTypeParameterEntry (entry : String) : Bool :=
  entry.toList.any fun c => c == '.' || c == '<' || c == '>'

/-- The deprecation text of a declaration with the given annotations. -/
def deprecation (annotations : List String) : String :=
  if annotations.any fun name => name == "Deprecated" || name == "java.lang.Deprecated" then
    deprecatedMark
  else notDeprecated

namespace Header

/-- Whether a modifier keyword is among the modifiers. -/
def has (h : Header) (word : String) : Bool :=
  h.modifiers.any fun entry => !isTypeParameterEntry entry && entry == word

/-- The first visibility among the modifiers. -/
def visibility (h : Header) : Option Visibility := h.modifiers.findSome? Visibility.ofWord?

/-- The deprecation text. -/
def deprecated (h : Header) : String := deprecation h.annotations

/-- The type parameters among the modifiers. -/
def typeParameters (h : Header) : List TypeParameter :=
  (h.modifiers.filter isTypeParameterEntry).map TypeParameter.ofDeclaration

/-- Whether the given modifier keyword is among the modifiers. -/
def hasKeyword (h : Header) (k : Keyword) : Bool := h.has k.word

end Header

/-- One thing in front of a declaration. -/
inductive HeaderItem where
  | annotated (name : String)
  | modifiers (entries : List String)
deriving DecidableEq, Repr

/-- The header made of items in order. -/
def Header.ofItems : List HeaderItem → Header
  | [] => {}
  | .annotated name :: more =>
    let rest := ofItems more
    { rest with annotations := name :: rest.annotations }
  | .modifiers entries :: more =>
    let rest := ofItems more
    { rest with modifiers := entries ++ rest.modifiers }

namespace Grammar

open Rule

/-! ## Rules -/

/-- A value of an annotation element, with the name of the element if one is given. -/
def annotationElement : Rule Unit := do
  discard (optional (do discard identifier; symbol .assign))
  someNoiseUntil isComma

/-- The elements of an annotation. -/
def annotationElements : Rule Unit :=
  discard (between (symbol .leftParen) (symbol .rightParen)
    (sepByTrailing annotationElement (symbol .comma)))

/-- An annotation, read as its name. -/
def annotationName : Rule String := do
  symbol .atSign
  let name ← dottedName
  discard (optional annotationElements)
  return name

/-- Any number of annotations. -/
def annotations : Rule (List String) := many annotationName

/-- One thing in front of a declaration. -/
def headerItem : Rule HeaderItem :=
  (do return .annotated (← annotationName)) <|>
  (do return .modifiers [← modifier]) <|>
  (do return .modifiers (← genericList))

/-- All that stands in front of a declaration. -/
def header : Rule Header := do
  let items ← many headerItem
  return Header.ofItems items

end Grammar

end ApiSurface
