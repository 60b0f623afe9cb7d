import ApiSurface.Grammar.Rule

/-!
# Single tokens and names

The rules for one token, each with the label that a diagnostic gives to it, and for names made of
identifiers and points.
-/

namespace ApiSurface.Grammar

open Rule

/-- A token of exactly the given kind. -/
def exactly (kind : TokenKind) (label : String) : Rule Unit :=
  token (.one label) fun t => if t.kind = kind then some () else none

/-- The given keyword. -/
def keyword (k : Keyword) : Rule Unit := exactly (.keyword k) ("'" ++ k.word ++ "'")

/-- The given symbol. -/
def symbol (s : Symbol) : Rule Unit := exactly (.symbol s) ("'" ++ s.text ++ "'")

/-- The end of the input. -/
def endOfInput : Rule Unit := exactly .eof "end of input"

/-- Any identifier. -/
def identifier : Rule String := token (.one "identifier") Token.identifier?

/-- The identifier `w`, a word with a meaning only in this place. -/
def word (w : String) : Rule Unit := exactly (.identifier w) w

/-- Any modifier keyword, as it is written. -/
def modifier : Rule String :=
  token (.one "modifier") fun t => if t.isModifier then some t.lexeme else none

/-- A literal, as it is written. -/
def literal : Rule String := token (.one "literal") Token.literal?

/-- A token that satisfies `p`, for which no label is known. -/
def tokenWith (p : Token → Bool) : Rule Unit :=
  token .unstated fun t => if p t then some () else none

/-- Identifiers with points between them. -/
def dottedName : Rule String := do
  let first ← identifier
  let more ← many (do symbol .dot; identifier)
  return ".".intercalate (first :: more)

/-- What an import names: identifiers with points between them, behind a point also a star. -/
def importTarget : Rule String := do
  let first ← identifier
  let more ← many (do symbol .dot; identifier <|> (do symbol .star; return "*"))
  return ".".intercalate (first :: more)

end ApiSurface.Grammar
