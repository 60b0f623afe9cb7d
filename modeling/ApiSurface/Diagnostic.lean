import ApiSurface.Grammar.Declaration
import ApiSurface.Token.Scan

/-!
# Diagnostics, and reading a source file

A source file that cannot be read is refused with a diagnostic: how grave it is, where it is, and
what is wrong. `CompileUnit.parse` reads a file; it fails with a fault in the text or with what the
grammar found unexpected.
-/

namespace ApiSurface

open Text

/-! ## Diagnostics -/

/-- How grave a diagnostic is. -/
inductive Severity where
  | error
  | warning
deriving DecidableEq, Repr

/-- The word for a severity. -/
def Severity.word : Severity → String
  | error => "Error"
  | warning => "Warning"

/-- A problem in a source file. -/
structure Diagnostic where
  severity : Severity
  position : Position
  message : String
deriving DecidableEq, Repr

/-- The diagnostic on one line. -/
def Diagnostic.describe (d : Diagnostic) : String :=
  d.severity.word ++ " (" ++ toString d.position.line ++ ":" ++ toString d.position.column ++ ") " ++
    d.message

/-- The first of several diagnostics, and how many more there are. -/
def summarize : List Diagnostic → String
  | [] => "no diagnostics"
  | [only] => only.describe
  | first :: more => first.describe ++ " (and " ++ toString more.length ++ " more)"

/-! ## What is wrong -/

/-- The fault of a text, without its position. -/
def ScanFault.summary : ScanFault → String
  | unexpected c => "unexpected character '" ++ String.singleton c ++ "'"
  | openString => "unterminated string literal"
  | openCharacter => "unterminated character literal"
  | openComment => "unterminated block comment"

/-- Why tokens are refused. -/
inductive SyntaxFault where
  | unexpected (found : Option Token) (expected : Expectation)
  | unclosed (delimiter : Token)
  | other (message : String)
deriving DecidableEq, Repr

/-- The fault in words. An expectation is stated only if there is exactly one. -/
def SyntaxFault.message : SyntaxFault → String
  | unexpected found expected =>
    let subject := "unexpected " ++ (found.map Token.describe).getD "end of input"
    match expected with
    | .one label => subject ++ ", expected " ++ label
    | _ => subject
  | unclosed delimiter => "unclosed delimiter " ++ delimiter.describe
  | other message => message

namespace Diagnostic

/-- The diagnostic for a fault of a text. -/
def ofScanError (e : ScanError) : Diagnostic := ⟨.error, e.position, e.cause.summary⟩

/-- The diagnostic for a fault at the token of the given index, or at the last token if there are
not so many. Without any token there is no position, and the diagnostic is a warning. -/
def ofSyntaxFault (tokens : Array Token) (index : Nat) (fault : SyntaxFault) : Diagnostic :=
  match tokens[min index (tokens.size - 1)]? with
  | some t => ⟨.error, t.position, fault.message⟩
  | none => ⟨.warning, ⟨0, 0⟩, fault.message⟩

/-- The diagnostic for the failure of a rule. -/
def ofFailure (tokens : Array Token) (f : Failure) : Diagnostic :=
  ofSyntaxFault tokens f.index (.unexpected tokens[f.index]? f.expected)

end Diagnostic

/-! ## Reading a source file -/

/-- Why a source file cannot be read. -/
inductive ParseError where
  | text (cause : ScanError)
  | tokens (diagnostics : List Diagnostic)
deriving DecidableEq, Repr

namespace ParseError

/-- The diagnostics of a file that cannot be read. -/
def diagnostics : ParseError → List Diagnostic
  | text cause => [.ofScanError cause]
  | tokens diagnostics => diagnostics

/-- The error on one line. -/
def message : ParseError → String
  | text cause => "Lexical error: " ++ cause.message
  | tokens diagnostics => "Syntax error: " ++ summarize diagnostics

end ParseError

namespace CompileUnit

/-- The compile unit that the tokens are. -/
def ofTokens (tokens : Array Token) : Except ParseError CompileUnit :=
  match Grammar.compileUnit.run tokens with
  | .ok (unit, _) => .ok unit
  | .error failure => .error (.tokens [.ofFailure tokens failure])

/-- The compile unit that the text is. -/
def parse (text : String) : Except ParseError CompileUnit :=
  match scan text with
  | .ok tokens => ofTokens tokens.toArray
  | .error cause => .error (.text cause)

end CompileUnit

end ApiSurface
