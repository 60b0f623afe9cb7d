import ApiSurface.Toml.Quoted
import ApiSurface.Toml.Value

/-!
# Reading TOML

`Toml.read?` reads a document line by line into its fields. It accepts the documents of the format
whose values are texts, truth values, lists and tables; numbers, dates and lists of tables have no
place in a document read here, and are refused like everything that is not in the format.
-/

namespace ApiSurface.Toml

/-! ## Blanks, comments and line ends -/

/-- The text behind blanks. -/
def skipBlanks (cs : List Char) : List Char := cs.dropWhile isBlank

/-- The text behind blanks, line breaks and comments; nothing if a comment is not allowed. -/
def skipFree (inComment : Bool) : List Char → Option (List Char)
  | [] => some []
  | '\r' :: '\n' :: rest => skipFree false rest
  | c :: rest =>
    if c == '\n' then skipFree false rest
    else if inComment then if isPlain c then skipFree true rest else none
    else if isBlank c then skipFree false rest
    else if c == '#' then skipFree true rest
    else some (c :: rest)

/-- The text behind the end of the line, before which blanks and a comment may stand. -/
def lineEnd? (inComment : Bool) : List Char → Option (List Char)
  | [] => some []
  | '\r' :: '\n' :: rest => some rest
  | c :: rest =>
    if c == '\n' then some rest
    else if inComment then if isPlain c then lineEnd? true rest else none
    else if isBlank c then lineEnd? false rest
    else if c == '#' then lineEnd? true rest
    else none

/-! ## Keys -/

/-- The characters of a key without quotes. -/
def isBareKey (c : Char) : Bool := c.isAlphanum || c == '_' || c == '-'

/-- One part of a key, and the text behind it. -/
def keyPart? (cs : List Char) : Option (String × List Char) :=
  let bare := cs.takeWhile isBareKey
  if bare.isEmpty then shortText? cs else some (String.ofList bare, cs.dropWhile isBareKey)

/-- A dotted key, and the text behind it and the blanks that follow. The first argument bounds the
number of its parts. -/
def key? : Nat → List Char → Option (List String × List Char)
  | 0, _ => none
  | bound + 1, cs => do
    let (part, rest) ← keyPart? (skipBlanks cs)
    match skipBlanks rest with
    | '.' :: rest =>
      let (more, rest) ← key? bound rest
      return (part :: more, rest)
    | rest => return ([part], rest)

/-! ## Values -/

mutual

/-- A value, and the text behind it. The first argument bounds the number of nested and neighbouring
values. -/
def value? : Nat → List Char → Option (Value × List Char)
  | 0, _ => none
  | bound + 1, cs =>
    match cs with
    | 't' :: 'r' :: 'u' :: 'e' :: rest => some (.flag true, rest)
    | 'f' :: 'a' :: 'l' :: 's' :: 'e' :: rest => some (.flag false, rest)
    | '[' :: rest => (items? bound rest).map fun (items, rest) => (.list items, rest)
    | '\x7b' :: rest =>
      match skipBlanks rest with
      | '\x7d' :: rest => some (.table .inline [], rest)
      | rest => (pairs? bound [] rest).map fun (fields, rest) => (.table .inline fields, rest)
    | cs => (text? cs).map fun (content, rest) => (.text content, rest)

/-- The items of a list up to its closing bracket; a comma may follow the last one. -/
def items? : Nat → List Char → Option (List Value × List Char)
  | 0, _ => none
  | bound + 1, cs => do
    match ← skipFree false cs with
    | ']' :: rest => return ([], rest)
    | cs =>
      let (item, rest) ← value? bound cs
      match ← skipFree false rest with
      | ',' :: rest =>
        let (more, rest) ← items? bound rest
        return (item :: more, rest)
      | ']' :: rest => return ([item], rest)
      | _ => none

/-- The fields of a table between braces, behind those already read, up to its closing brace. -/
def pairs? : Nat → Fields → List Char → Option (Fields × List Char)
  | 0, _, _ => none
  | bound + 1, fields, cs => do
    let (path, rest) ← key? (cs.length + 1) cs
    match rest with
    | '=' :: rest =>
      let (value, rest) ← value? bound (skipBlanks rest)
      let fields ← fields.put value path
      match skipBlanks rest with
      | ',' :: rest => pairs? bound fields rest
      | '\x7d' :: rest => return (fields, rest)
      | _ => none
    | _ => none

end

/-! ## Documents -/

/-- Reads the lines of a document into fields, the table at the path `current` being open. The first
argument bounds the number of lines. -/
def lines? : Nat → List String → Fields → List Char → Option Fields
  | 0, _, _, _ => none
  | bound + 1, current, fields, cs => do
    match ← skipFree false cs with
    | [] => return fields
    | '[' :: rest =>
      let (path, rest) ← key? (rest.length + 1) rest
      match rest with
      | ']' :: rest =>
        let rest ← lineEnd? false rest
        let fields ← fields.openTable path
        lines? bound path fields rest
      | _ => none
    | cs =>
      let (path, rest) ← key? (cs.length + 1) cs
      match rest with
      | '=' :: rest =>
        let cs := skipBlanks rest
        let (value, rest) ← value? (2 * cs.length + 2) cs
        let rest ← lineEnd? false rest
        let fields ← fields.within (Fields.put value path) current
        lines? bound current fields rest
      | _ => none

/-- The fields of a document. -/
def read? (text : String) : Option Fields :=
  let cs := match text.toList with
    | '\uFEFF' :: rest => rest
    | cs => cs
  lines? (cs.length + 1) [] [] cs

end ApiSurface.Toml
