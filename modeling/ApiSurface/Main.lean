import ApiSurface.Cli.Run

/-!
# The program

Reads the arguments, the settings file and the input, and writes the description to the output file
or to standard output. What is wrong goes to standard error, and the exit code says that something
is.
-/

namespace ApiSurface.Program

/-- The reason for which the operating system refuses. -/
def faultOf : IO.Error → FileFault
  | .noFileOrDirectory .. => .missing
  | e => .other (toString e)

/-- The contents of the file at a path. -/
def readFile (path : String) : IO (Except FileFault ByteArray) := do
  try
    return .ok (← IO.FS.readBinFile path)
  catch e => return .error (faultOf e)

/-- What stands at a path. -/
partial def readTree (path : String) : IO (Except FileFault FileTree) := do
  try
    let place ← IO.FS.realPath path
    if ← place.isDir then
      let mut children := []
      for child in ← place.readDir do
        match ← readTree child.path.toString with
        | .ok t => children := (child.fileName, t) :: children
        | .error cause => return .error cause
      return .ok (.directory children)
    else
      return .ok (.file (← IO.FS.readBinFile path))
  catch e => return .error (faultOf e)

/-- Says what is wrong. -/
def complain (message : String) : IO UInt32 := do
  IO.eprintln ("Error: " ++ message)
  return 1

/-- How the program is used. -/
def usage : String :=
  "Usage: [OPTIONS] --input <INPUT>\n\n" ++
  "  -i, --input <INPUT>    Stub source archive (.zip/.jar) or directory\n" ++
  "  -o, --output <OUTPUT>  Output file; standard output when omitted\n" ++
  "  -v, --verbose          Log every visited entry\n" ++
  "      --parameters-only  Only write parameter names and types\n" ++
  "      --json             Write the model as JSON instead of XML\n" ++
  "      --framework-only   Drop support-library and other non-framework packages\n" ++
  "  -c, --config <CONFIG>  TOML file with importer settings; flags override it\n" ++
  "  -h, --help             Print help\n" ++
  "  -V, --version          Print version"

/-- What is wrong with the arguments. -/
def usageMessage : UsageError → String
  | .missingRequired => "the required argument --input <INPUT> was not provided"
  | .invalidValue => "a value is required for an option but none was supplied"
  | .unknownArgument => "unexpected argument found"
  | .conflict => "an argument cannot be used with one of the other specified arguments"
  | .tooManyValues => "unexpected value for a flag; no more were expected"
  | .helpWanted | .versionWanted => ""

/-- Runs the program with arguments that have been read. -/
def run (a : Arguments) : IO UInt32 := do
  let config ← match a.config with
    | some path => readFile path
    | none => pure (.error .missing)
  match a.settings fun _ => config with
  | .error cause => complain cause.message
  | .ok settings =>
    match a.describe settings (← readTree a.input) with
    | .error cause => complain cause.message
    | .ok (_, text) =>
      match a.output with
      | none =>
        IO.print text
        return 0
      | some path =>
        try
          IO.FS.writeFile path text
          return 0
        catch e => complain (RunError.message (.notWritten path (faultOf e)))

end ApiSurface.Program

/-- The entry point of the program. -/
def main (line : List String) : IO UInt32 := do
  match ApiSurface.Arguments.parse line with
  | .ok a => ApiSurface.Program.run a
  | .error .helpWanted =>
    IO.println ApiSurface.Program.usage
    return 0
  | .error .versionWanted =>
    IO.println "0.1.0"
    return 0
  | .error cause =>
    IO.eprintln ("error: " ++ ApiSurface.Program.usageMessage cause)
    return 2
