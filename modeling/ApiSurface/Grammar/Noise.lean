import ApiSurface.Grammar.Word

/-!
# Bodies, initialisers and arguments

What a body or an initialiser computes is of no interest; the rules here find where it ends. Inside,
brackets of the three kinds must be well nested, and everything between them is noise.
-/

namespace ApiSurface.Grammar

open Rule

/-! ## Groups -/

/-- A token that is neither a bracket nor the end of the input. -/
def plainToken : Rule Unit := tokenWith fun t => !t.isDelimiter

/-- A pair of brackets with balanced content, by means of the groups inside it. -/
def groupBody (group : Rule Unit) : Rule Unit :=
  let inside := many (group <|> plainToken)
  discard (between (symbol .leftParen) (symbol .rightParen) inside) <|>
  discard (between (symbol .leftBrace) (symbol .rightBrace) inside) <|>
  discard (between (symbol .leftBracket) (symbol .rightBracket) inside)

/-- A pair of brackets with balanced content. -/
def balancedGroup : Rule Unit := recursive groupBody

/-- A group, or a token that is no bracket and does not satisfy `stop`. -/
def noiseItem (stop : TokenKind → Bool) : Rule Unit :=
  balancedGroup <|> tokenWith fun t => !t.isDelimiter && !stop t.kind

/-- Groups and tokens up to the first token that satisfies `stop` or the first bracket that is not
opened here. -/
def noiseUntil (stop : TokenKind → Bool) : Rule Unit := discard (many (noiseItem stop))

/-- The same, of at least one group or token. -/
def someNoiseUntil (stop : TokenKind → Bool) : Rule Unit := discard (many1 (noiseItem stop))

/-- Whether a token separates arguments. -/
def isComma (kind : TokenKind) : Bool := kind == .symbol .comma

/-- Whether a token ends a statement. -/
def isSemicolon (kind : TokenKind) : Bool := kind == .symbol .semicolon

/-! ## Statements and blocks -/

/-- A call of the constructor of the superclass. -/
def superCall : Rule Unit := do
  keyword .superKw
  balancedGroup
  symbol .semicolon

/-- The statement that stands for a body left out. -/
def stubThrow : Rule Unit := do
  keyword .throwKw
  keyword .newKw
  word "RuntimeException"
  between (symbol .leftParen) (symbol .rightParen)
    (tokenWith fun t => t.kind == .string "Stub!")
  symbol .semicolon

/-- Any statement that a semicolon ends. -/
def plainStatement : Rule Unit := do
  noiseUntil isSemicolon
  symbol .semicolon

/-- One part of a statement that braces end: tokens and groups, then a group in braces. -/
def bracedPart : Rule Unit := do
  discard (many
    ((tokenWith fun t => !t.isDelimiter && !isSemicolon t.kind) <|>
      (do lookahead (symbol .leftParen <|> symbol .leftBracket); balancedGroup)))
  lookahead (symbol .leftBrace)
  balancedGroup

/-- A statement that a group in braces ends. -/
def bracedStatement : Rule Unit := discard (many1 bracedPart)

/-- Statements between braces, by means of the blocks inside. -/
def blockBody (block : Rule Unit) : Rule Unit :=
  discard (between (symbol .leftBrace) (symbol .rightBrace)
    (many (superCall <|> stubThrow <|> block <|> plainStatement <|> bracedStatement)))

/-- Statements between braces. -/
def block : Rule Unit := recursive blockBody

/-- The default value of an element of an annotation type. -/
def defaultValue : Rule Unit := do
  keyword .defaultKw
  someNoiseUntil isSemicolon
  symbol .semicolon

/-- What ends a method or constructor: a semicolon, a default value or a body. -/
def callableEnd : Rule Unit := symbol .semicolon <|> defaultValue <|> block

/-- The arguments and the body of an enumeration constant. -/
def constantTail : Rule Unit := discard (many balancedGroup)

end ApiSurface.Grammar
