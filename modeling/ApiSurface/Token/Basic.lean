import ApiSurface.Text.Position

/-!
# Tokens of the stub dialect

A token is a kind, the text it was read from and the position where that text begins. Words with a
meaning of their own are keywords, brackets and separators are symbols; the remaining operator
characters only occur in initialisers and bodies, where nothing depends on which one it is.
-/

namespace ApiSurface

/-! ## Keywords -/

/-- The reserved words of the dialect. -/
inductive Keyword where
  | packageKw | importKw
  | publicKw | protectedKw | staticKw | finalKw | abstractKw
  | synchronizedKw | defaultKw | nativeKw | volatileKw | transientKw
  | enumKw | classKw | interfaceKw | extendsKw | implementsKw
  | throwKw | throwsKw | nullKw | superKw | trueKw | falseKw | newKw
deriving DecidableEq, Repr

namespace Keyword

/-- The word itself. -/
def word : Keyword → String
  | packageKw => "package"
  | importKw => "import"
  | publicKw => "public"
  | protectedKw => "protected"
  | staticKw => "static"
  | finalKw => "final"
  | abstractKw => "abstract"
  | synchronizedKw => "synchronized"
  | defaultKw => "default"
  | nativeKw => "native"
  | volatileKw => "volatile"
  | transientKw => "transient"
  | enumKw => "enum"
  | classKw => "class"
  | interfaceKw => "interface"
  | extendsKw => "extends"
  | implementsKw => "implements"
  | throwKw => "throw"
  | throwsKw => "throws"
  | nullKw => "null"
  | superKw => "super"
  | trueKw => "true"
  | falseKw => "false"
  | newKw => "new"

/-- The keywords that may stand in front of a declaration. -/
def modifiers : List Keyword :=
  [publicKw, protectedKw, staticKw, finalKw, abstractKw, synchronizedKw, defaultKw, nativeKw,
    volatileKw, transientKw]

/-- Every keyword. -/
def all : List Keyword :=
  [packageKw, importKw] ++ modifiers ++
    [enumKw, classKw, interfaceKw, extendsKw, implementsKw, throwKw, throwsKw, nullKw, superKw,
      trueKw, falseKw, newKw]

/-- The keyword spelled by `text`, if there is one. -/
def ofWord? (text : String) : Option Keyword :=
  all.find? fun k => k.word == text

/-- Whether the keyword may stand in front of a declaration. -/
def isModifier (k : Keyword) : Bool :=
  modifiers.contains k

/-- A keyword is found by its own spelling. -/
theorem ofWord?_word (k : Keyword) : ofWord? k.word = some k := by
  cases k <;> decide

/-- A text is read as a keyword only if it is that keyword's spelling. -/
theorem word_of_ofWord? {text : String} {k : Keyword} (h : ofWord? text = some k) :
    k.word = text := by
  simpa using List.find?_some h

end Keyword

/-! ## Symbols -/

/-- Brackets, separators and the other marks that the grammar names. -/
inductive Symbol where
  | leftParen | rightParen | leftBrace | rightBrace | leftBracket | rightBracket
  | less | greater | comma | semicolon | dot | ellipsis | assign | question | ampersand
  | atSign | star | atInterface
deriving DecidableEq, Repr

namespace Symbol

/-- How the symbol is written. -/
def text : Symbol → String
  | leftParen => "("
  | rightParen => ")"
  | leftBrace => "\x7b"
  | rightBrace => "\x7d"
  | leftBracket => "["
  | rightBracket => "]"
  | less => "<"
  | greater => ">"
  | comma => ","
  | semicolon => ";"
  | dot => "."
  | ellipsis => "..."
  | assign => "="
  | question => "?"
  | ampersand => "&"
  | atSign => "@"
  | star => "*"
  | atInterface => "@interface"

/-- The symbol written as the one character `c`. -/
def ofChar? : Char → Option Symbol
  | '(' => some leftParen
  | ')' => some rightParen
  | '\x7b' => some leftBrace
  | '\x7d' => some rightBrace
  | '[' => some leftBracket
  | ']' => some rightBracket
  | '<' => some less
  | '>' => some greater
  | ',' => some comma
  | ';' => some semicolon
  | '.' => some dot
  | '=' => some assign
  | '?' => some question
  | '&' => some ampersand
  | '@' => some atSign
  | '*' => some star
  | _ => none

end Symbol

/-- The operator characters that are tokens without a name of their own. -/
def isOperator (c : Char) : Bool :=
  ['+', '-', '/', '%', '!', '~', '^', '|', ':'].contains c

/-! ## Tokens -/

/-- What a token is. Literals keep their spelling: numbers are never evaluated, and escapes in
quoted texts stay as written. -/
inductive TokenKind where
  | identifier (name : String)
  | string (content : String)
  | character (content : String)
  | number (spelling : String)
  | keyword (word : Keyword)
  | symbol (mark : Symbol)
  | operator (mark : Char)
  | eof
deriving DecidableEq, Repr

/-- A token, the text it was read from, and where that text begins. -/
structure Token where
  kind : TokenKind
  lexeme : String
  position : Text.Position
deriving DecidableEq, Repr

namespace Token

/-- How a diagnostic speaks of the token. -/
def describe (t : Token) : String :=
  match t.kind with
  | .eof => "end of input"
  | _ => "`" ++ t.lexeme ++ "`"

/-- The name, if the token is an identifier. -/
def identifier? (t : Token) : Option String :=
  match t.kind with
  | .identifier name => some name
  | _ => none

/-- Whether the token is a modifier keyword. -/
def isModifier (t : Token) : Bool :=
  match t.kind with
  | .keyword k => k.isModifier
  | _ => false

/-- The spelling, if the token is a literal: a quoted text, a number, or one of the words for the
null reference and the truth values. -/
def literal? (t : Token) : Option String :=
  match t.kind with
  | .string _ | .character _ | .number _ => some t.lexeme
  | .keyword .nullKw | .keyword .trueKw | .keyword .falseKw => some t.lexeme
  | _ => none

/-- The brackets, and the end of the input: the tokens that are never noise on their own. -/
def isDelimiter (t : Token) : Bool :=
  match t.kind with
  | .symbol .leftParen | .symbol .rightParen | .symbol .leftBrace | .symbol .rightBrace
  | .symbol .leftBracket | .symbol .rightBracket | .eof => true
  | _ => false

end Token

end ApiSurface
