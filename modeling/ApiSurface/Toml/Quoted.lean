import ApiSurface.Text.Hex

/-!
# Quoted texts in TOML

There are four forms of a text: between double quotes with escapes, between single quotes as it is,
and each of the two between three quotes, where it may run over several lines. A line break counts
as one line feed, however it is written, and one directly behind three opening quotes does not
count.
-/

namespace ApiSurface.Toml

/-- Blanks within a line. -/
def isBlank (c : Char) : Bool := c == ' ' || c == '\t'

/-- The characters that comments and texts may hold as they are. -/
def isPlain (c : Char) : Bool := c == '\t' || (0x20 ≤ c.toNat && c.toNat != 0x7F)

/-- The character of an escape of one letter. -/
def shortEscape? : Char → Option Char
  | 'b' => some '\x08'
  | 't' => some '\t'
  | 'n' => some '\n'
  | 'f' => some '\x0c'
  | 'r' => some '\r'
  | '"' => some '"'
  | '\\' => some '\\'
  | _ => none

/-- The character with the number that hexadecimal digits write, if there is one. -/
def scalar? (digits : List Char) : Option Char :=
  (Text.hexNumber? 0 digits).bind fun n => if n.isValidChar then some (Char.ofNat n) else none

/-- The first part of a pair with a character in front. -/
def consChar (c : Char) (p : List Char × List Char) : List Char × List Char := (c :: p.1, p.2)

/-- A text between double quotes behind its opening quote, and what follows the closing one. -/
def basic? : List Char → Option (List Char × List Char)
  | [] => none
  | '"' :: rest => some ([], rest)
  | '\\' :: 'u' :: a :: b :: c :: d :: rest => do
    let e ← scalar? [a, b, c, d]
    return consChar e (← basic? rest)
  | '\\' :: 'U' :: a :: b :: c :: d :: e :: f :: g :: h :: rest => do
    let e ← scalar? [a, b, c, d, e, f, g, h]
    return consChar e (← basic? rest)
  | '\\' :: e :: rest => do
    let e ← shortEscape? e
    return consChar e (← basic? rest)
  | c :: rest => if isPlain c && c != '\\' then (basic? rest).map (consChar c) else none

/-- A text between single quotes behind its opening quote, and what follows the closing one. -/
def literal? : List Char → Option (List Char × List Char)
  | [] => none
  | '\'' :: rest => some ([], rest)
  | c :: rest => if isPlain c then (literal? rest).map (consChar c) else none

/-- Where the reading of a text of several lines stands. -/
inductive LineState where
  /-- In the text. -/
  | inside
  /-- Behind a backslash that ends a line, before the end of the line. -/
  | lineEnd
  /-- Behind such an end of a line, before the text goes on. -/
  | joined
deriving DecidableEq, Repr

/-- A text between three double quotes. A backslash at the end of a line joins the line with the next
character that is neither blank nor line break. Up to two quotes may stand before the closing
ones. -/
def longBasic? : LineState → List Char → Option (List Char × List Char)
  | _, [] => none
  | .lineEnd, '\r' :: '\n' :: rest => longBasic? .joined rest
  | .lineEnd, c :: rest =>
    if c == '\n' then longBasic? .joined rest
    else if isBlank c then longBasic? .lineEnd rest
    else none
  | .joined, '\r' :: '\n' :: rest => longBasic? .joined rest
  | .inside, '\r' :: '\n' :: rest => (longBasic? .inside rest).map (consChar '\n')
  | _, '"' :: '"' :: '"' :: '"' :: '"' :: rest => some (['"', '"'], rest)
  | _, '"' :: '"' :: '"' :: '"' :: rest => some (['"'], rest)
  | _, '"' :: '"' :: '"' :: rest => some ([], rest)
  | _, '\\' :: 'u' :: a :: b :: c :: d :: rest => do
    let e ← scalar? [a, b, c, d]
    return consChar e (← longBasic? .inside rest)
  | _, '\\' :: 'U' :: a :: b :: c :: d :: e :: f :: g :: h :: rest => do
    let e ← scalar? [a, b, c, d, e, f, g, h]
    return consChar e (← longBasic? .inside rest)
  | _, '\\' :: '\r' :: '\n' :: rest => longBasic? .joined rest
  | _, '\\' :: e :: rest =>
    if e == '\n' then longBasic? .joined rest
    else if isBlank e then longBasic? .lineEnd rest
    else do
      let e ← shortEscape? e
      return consChar e (← longBasic? .inside rest)
  | state, c :: rest =>
    if state == .joined && (isBlank c || c == '\n') then longBasic? .joined rest
    else if c == '\n' || (isPlain c && c != '\\') then
      (longBasic? .inside rest).map (consChar c)
    else none

/-- A text between three single quotes. Up to two quotes may stand before the closing ones. -/
def longLiteral? : List Char → Option (List Char × List Char)
  | [] => none
  | '\r' :: '\n' :: rest => (longLiteral? rest).map (consChar '\n')
  | '\'' :: '\'' :: '\'' :: '\'' :: '\'' :: rest => some (['\'', '\''], rest)
  | '\'' :: '\'' :: '\'' :: '\'' :: rest => some (['\''], rest)
  | '\'' :: '\'' :: '\'' :: rest => some ([], rest)
  | c :: rest =>
    if c == '\n' || isPlain c then (longLiteral? rest).map (consChar c) else none

/-- The text without a line break in front. -/
def dropBreak : List Char → List Char
  | '\n' :: rest => rest
  | '\r' :: '\n' :: rest => rest
  | cs => cs

/-- A text of one line with its quotes, and what follows it. -/
def shortText? : List Char → Option (String × List Char)
  | '"' :: rest => (basic? rest).map fun p => (String.ofList p.1, p.2)
  | '\'' :: rest => (literal? rest).map fun p => (String.ofList p.1, p.2)
  | _ => none

/-- A text of any form with its quotes, and what follows it. -/
def text? : List Char → Option (String × List Char)
  | '"' :: '"' :: '"' :: rest =>
    (longBasic? .inside (dropBreak rest)).map fun p => (String.ofList p.1, p.2)
  | '\'' :: '\'' :: '\'' :: rest =>
    (longLiteral? (dropBreak rest)).map fun p => (String.ofList p.1, p.2)
  | cs => shortText? cs

end ApiSurface.Toml
