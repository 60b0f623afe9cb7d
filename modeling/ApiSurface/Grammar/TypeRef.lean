import ApiSurface.Grammar.Word

/-!
# References to types

A reference to a type is a dotted name with optional type arguments, followed by array brackets and
the dots of a variable number of arguments. It is read as its text in one fixed form: a comma and a
blank between arguments, a blank around the words and marks of a bound, nothing elsewhere.
-/

namespace ApiSurface.Grammar

open Rule

/-- The brackets of an array, or the dots of a variable number of arguments. -/
def typeSuffix : Rule String :=
  (do symbol .leftBracket; symbol .rightBracket; return "[]") <|>
    (do symbol .ellipsis; return "...")

/-- The bound of a type argument or parameter, with the blank in front of it. -/
def typeBound (type : Rule String) : Rule String :=
  (do
    keyword .extendsKw
    let bounds ← sepBy1 type (symbol .ampersand)
    return " extends " ++ " & ".intercalate bounds) <|>
  (do
    keyword .superKw
    let bound ← type
    return " super " ++ bound)

/-- A type argument or parameter: a wildcard or a type, and an optional bound. -/
def typeArgument (type : Rule String) : Rule String := do
  let head ← (do symbol .question; return "?") <|> type
  let bound ← optional (typeBound type)
  return head ++ bound.getD ""

/-- A list of type arguments or parameters between angle brackets. -/
def typeArguments (type : Rule String) : Rule (List String) :=
  between (symbol .less) (symbol .greater) (sepBy1 (typeArgument type) (symbol .comma))

/-- The text of a list of type arguments. -/
def argumentsText : Option (List String) → String
  | none => ""
  | some arguments => "<" ++ ", ".intercalate arguments ++ ">"

/-- A reference to a type, by means of the references inside it. -/
def typeRefBody (type : Rule String) : Rule String := do
  let name ← dottedName
  let arguments ← optional (typeArguments type)
  let suffixes ← many typeSuffix
  return name ++ argumentsText arguments ++ String.join suffixes

/-- A reference to a type. -/
def typeRef : Rule String := recursive typeRefBody

/-- A list of type parameters or arguments. -/
def genericList : Rule (List String) := typeArguments typeRef

/-- At least one reference to a type, with commas between them. -/
def typeList : Rule (List String) := sepBy1 typeRef (symbol .comma)

/-- A keyword and a list of types, all of which may be missing. -/
def clause (k : Keyword) : Rule (List String) := do
  let types ← optional (do keyword k; typeList)
  return types.getD []

end ApiSurface.Grammar
