import ApiSurface.Cli.Arguments
import ApiSurface.Description
import ApiSurface.Import.Source
import ApiSurface.Settings.File

/-!
# Running the program

The settings are the defaults, changed by the settings file and then by the command line. The input
is imported and described; only a complete description is written.
-/

namespace ApiSurface

/-- Why the settings file cannot be used. -/
inductive ConfigError where
  | unreadable (path : String) (cause : FileFault)
  | invalid (path : String)
deriving DecidableEq, Repr

/-- The error in words, followed by its cause. -/
def ConfigError.message : ConfigError → String
  | unreadable path cause =>
    "Failed to read config file " ++ path ++ ": " ++ cause.message ++ ": " ++ cause.message
  | invalid path => "Failed to parse config file " ++ path

/-- Why a run fails. -/
inductive RunError where
  | notImported (input : String) (cause : ImportError)
  | notWritten (output : String) (cause : FileFault)
deriving DecidableEq, Repr

/-- The error in words, followed by its causes. A cause that has a cause of its own repeats it. -/
def RunError.message : RunError → String
  | notImported input cause =>
    let subject := "failed to import " ++ input
    match cause with
    | .unreadable _ fault => subject ++ ": " ++ cause.message ++ ": " ++ fault.message
    | .notText _ fault => subject ++ ": " ++ cause.message ++ ": " ++ fault.message
    | .notSource _ _ => subject ++ ": " ++ cause.message
    | .badArchive _ | .badDirectory _ => subject
  | notWritten output cause => "failed to write " ++ output ++ ": " ++ cause.message

/-- The layer that a settings file gives. -/
def Layer.load (path : String) : Except FileFault ByteArray → Except ConfigError Layer
  | .error cause => .error (.unreadable path cause)
  | .ok bytes =>
    match Text.Utf8.decode bytes with
    | .error _ => .error (.unreadable path .notText)
    | .ok text =>
      match Layer.ofFile? text with
      | some layer => .ok layer
      | none => .error (.invalid path)

namespace Arguments

/-- The settings of a run; `read` gives the contents of a file. -/
def settings (a : Arguments) (read : String → Except FileFault ByteArray) :
    Except ConfigError Settings := do
  let layers ← match a.config with
    | none => pure []
    | some path => do
      let layer ← Layer.load path (read path)
      pure [layer]
  return ({} : Settings).applyAll (layers ++ [a.layer])

/-- What a run writes, and its report; `found` is what stands at the input path. -/
def describe (a : Arguments) (s : Settings) (found : Except FileFault FileTree) :
    Except RunError (Report × String) :=
  match importFound s a.input found with
  | .ok imported => .ok (imported.report, imported.api.describe s.outputMode)
  | .error cause => .error (.notImported a.input cause)

end Arguments

end ApiSurface
