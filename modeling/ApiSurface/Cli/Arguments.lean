import ApiSurface.Settings.Basic

/-!
# Command line arguments

The arguments are read from left to right. An option takes its value from the same argument, behind
an equals sign or directly behind its letter, or from the next argument, unless that begins with a
hyphen and is more than one. Several letters may share one hyphen. Every option may be given once.

An option whose value stands in an argument of its own is *pending*: it is settled when the next
option or flag is read, or at the end, so an argument that is not known counts before a missing
value.
-/

namespace ApiSurface

/-! ## Arguments and usage errors -/

/-- The arguments of the program. -/
structure Arguments where
  input : String
  output : Option String := none
  config : Option String := none
  verbose : Bool := false
  parametersOnly : Bool := false
  json : Bool := false
  frameworkOnly : Bool := false
deriving DecidableEq, Repr

/-- Why the arguments are not accepted, or that help or the version is asked for instead. -/
inductive UsageError where
  | missingRequired
  | invalidValue
  | unknownArgument
  | conflict
  | tooManyValues
  | helpWanted
  | versionWanted
deriving DecidableEq, Repr

/-- The settings that the arguments give. -/
def Arguments.layer (a : Arguments) : Layer where
  outputMode :=
    if a.parametersOnly then some .parametersOnly else if a.json then some .json else none
  frameworkOnly := if a.frameworkOnly then some true else none
  verbose := if a.verbose then some true else none

namespace Arguments

/-! ## Switches -/

/-- The options, which have a value. -/
inductive ValueOption where
  | input
  | output
  | config
deriving DecidableEq, Repr

/-- The flags, which have none. -/
inductive Flag where
  | verbose
  | parametersOnly
  | json
  | frameworkOnly
deriving DecidableEq, Repr

/-- What a name or letter stands for. -/
inductive Switch where
  | option (o : ValueOption)
  | flag (f : Flag)
  | help
  | version
deriving DecidableEq, Repr

/-- The switch with the given long name. -/
def ofName? : String → Option Switch
  | "input" => some (.option .input)
  | "output" => some (.option .output)
  | "config" => some (.option .config)
  | "verbose" => some (.flag .verbose)
  | "parameters-only" => some (.flag .parametersOnly)
  | "json" => some (.flag .json)
  | "framework-only" => some (.flag .frameworkOnly)
  | "help" => some .help
  | "version" => some .version
  | _ => none

/-- The switch with the given letter. -/
def ofLetter? : Char → Option Switch
  | 'i' => some (.option .input)
  | 'o' => some (.option .output)
  | 'c' => some (.option .config)
  | 'v' => some (.flag .verbose)
  | 'h' => some .help
  | 'V' => some .version
  | _ => none

/-! ## Reading -/

/-- What has been read: the values of options, the flags, and the pending option with its value, if
that has come. -/
structure Reading where
  values : List (ValueOption × String) := []
  flags : List Flag := []
  pending : Option (ValueOption × Option String) := none

namespace Reading

/-- Gives an option its value. An option given twice is a conflict, and its value must not be
empty. -/
def give (r : Reading) (o : ValueOption) (value : String) : Except UsageError Reading :=
  if r.values.any fun given => given.1 == o then .error .conflict
  else if value.isEmpty then .error .invalidValue
  else .ok { r with values := (o, value) :: r.values, pending := none }

/-- Settles the pending option, whose value must have come. -/
def settle (r : Reading) : Except UsageError Reading :=
  match r.pending with
  | none => .ok r
  | some (_, none) => .error .invalidValue
  | some (o, some value) => r.give o value

/-- Sets a flag, which may be done once. -/
def setFlag (r : Reading) (f : Flag) : Except UsageError Reading :=
  if r.flags.contains f then .error .conflict else .ok { r with flags := f :: r.flags }

/-- Reads a switch that brings no value. -/
def switch (r : Reading) : Switch → Except UsageError Reading
  | .help => do
    discard r.settle
    .error .helpWanted
  | .version => do
    discard r.settle
    .error .versionWanted
  | .flag f => do
    let r ← r.settle
    r.setFlag f
  | .option o => do
    let r ← r.settle
    return { r with pending := some (o, none) }

/-- Reads the letters behind one hyphen. -/
def letters (r : Reading) : List Char → Except UsageError Reading
  | [] => .ok r
  | c :: rest =>
    match ofLetter? c with
    | none => .error .unknownArgument
    | some (.option o) =>
      match rest with
      | [] => r.switch (.option o)
      | '=' :: value => do
        let r ← r.settle
        r.give o (String.ofList value)
      | value => do
        let r ← r.settle
        r.give o (String.ofList value)
    | some s => do
      let r ← r.switch s
      r.letters rest

/-- Reads a name behind two hyphens. -/
def name (r : Reading) (text : List Char) : Except UsageError Reading :=
  let key := String.ofList (text.takeWhile (· != '='))
  match ofName? key, text.dropWhile (· != '=') with
  | none, _ => .error .unknownArgument
  | some s, [] => r.switch s
  | some (.option o), _ :: value => do
    let r ← r.settle
    r.give o (String.ofList value)
  | some _, _ :: _ => .error .tooManyValues

/-- Reads an argument that is no switch: the value of the pending option. -/
def plain (r : Reading) (value : String) : Except UsageError Reading :=
  match r.pending with
  | some (o, none) => .ok { r with pending := some (o, some value) }
  | _ => .error .unknownArgument

/-- Reads the arguments in order. Behind two hyphens alone nothing may follow. -/
def read (r : Reading) : List String → Except UsageError Reading
  | [] => r.settle
  | arg :: more =>
    match arg.toList with
    | ['-', '-'] => if more.isEmpty then r.settle else .error .unknownArgument
    | '-' :: '-' :: text => do
      let r ← r.name text
      r.read more
    | '-' :: c :: text => do
      let r ← r.letters (c :: text)
      r.read more
    | _ => do
      let r ← r.plain arg
      r.read more

/-- The arguments that have been read. A conflict counts before a missing input. -/
def finish (r : Reading) : Except UsageError Arguments :=
  if r.flags.contains .parametersOnly && r.flags.contains .json then .error .conflict
  else
    match r.values.lookup .input with
    | none => .error .missingRequired
    | some input =>
      .ok
        { input
          output := r.values.lookup .output
          config := r.values.lookup .config
          verbose := r.flags.contains .verbose
          parametersOnly := r.flags.contains .parametersOnly
          json := r.flags.contains .json
          frameworkOnly := r.flags.contains .frameworkOnly }

end Reading

/-- The arguments that a command line gives. -/
def parse (line : List String) : Except UsageError Arguments := do
  let r ← Reading.read {} line
  r.finish

end Arguments

end ApiSurface
