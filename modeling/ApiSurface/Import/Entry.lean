import ApiSurface.Diagnostic
import ApiSurface.Files.Fault
import ApiSurface.Text.Utf8

/-!
# Entries of a source

A source is a sequence of entries, each a name and bytes; in the place of an entry that cannot be
had stands an error. An entry whose name ends in `.java`, in any case, is a stub source, and only
of those the bytes matter.
-/

namespace ApiSurface

/-- Why an import fails. -/
inductive ImportError where
  /-- A file cannot be read. -/
  | unreadable (path : String) (cause : FileFault)
  /-- A file is no archive, or an entry of it cannot be found or is of a form not known here. -/
  | badArchive (path : String)
  /-- A directory cannot be listed. -/
  | badDirectory (path : String)
  /-- An entry is no text. -/
  | notText (entry : String) (cause : Text.Utf8.Fault)
  /-- An entry is no stub source. -/
  | notSource (entry : String) (diagnostics : List Diagnostic)
deriving DecidableEq, Repr

namespace ImportError

/-- The path or entry that the error is about. -/
def location : ImportError → String
  | unreadable path _ => path
  | badArchive path => path
  | badDirectory path => path
  | notText entry _ => entry
  | notSource entry _ => entry

/-- The error in words. What is wrong with an archive or a directory is not said. -/
def message : ImportError → String
  | unreadable path cause => "IO error while reading " ++ path ++ ": " ++ cause.message
  | badArchive path => "ZIP error while reading " ++ path
  | badDirectory path => "Error while walking " ++ path
  | notText entry cause => entry ++ " is not valid UTF-8: " ++ cause.message
  | notSource entry diagnostics => "Failed to parse " ++ entry ++ ": " ++ summarize diagnostics

end ImportError

/-- An entry of a source. -/
structure Entry where
  name : String
  contents : ByteArray

/-- Whether a name is that of a stub source. -/
def isSourceName (name : String) : Bool :=
  (name.toList.reverse.take 5).map Char.toLower == ['a', 'v', 'a', 'j', '.']

namespace Entry

/-- Whether the entry is a stub source. -/
def isSource (e : Entry) : Bool := isSourceName e.name

/-- The package that the entry declares. -/
def package (e : Entry) : Except ImportError Package :=
  match Text.Utf8.decode e.contents with
  | .error cause => .error (.notText e.name cause)
  | .ok text =>
    match CompileUnit.parse text with
    | .ok unit => .ok unit.package
    | .error cause => .error (.notSource e.name cause.diagnostics)

end Entry

end ApiSurface
