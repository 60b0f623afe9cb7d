import ApiSurface.Settings.Basic
import ApiSurface.Toml.Reader

/-!
# Settings files

A settings file is a TOML document that gives some of the settings. A key that is no setting, and a
value of the wrong kind, make the whole file invalid.
-/

namespace ApiSurface

open Toml

/-- A truth value. -/
def Toml.Value.flag? : Value → Option Bool
  | .flag value => some value
  | _ => none

/-- A text. -/
def Toml.Value.text? : Value → Option String
  | .text content => some content
  | _ => none

/-- A list of texts. -/
def Toml.Value.texts? : Value → Option (List String)
  | .list items => items.mapM Value.text?
  | _ => none

/-- A choice among names, given as a text or as a table whose only key is the name, with nothing in
it. -/
def Toml.Value.name? : Value → Option String
  | .text content => some content
  | .table _ [(name, .list [])] => some name
  | .table _ [(name, .table _ [])] => some name
  | _ => none

namespace Layer

/-- The layer with one more setting. -/
def withSetting? (l : Layer) (key : String) (value : Value) : Option Layer :=
  match key with
  | "output_mode" => do
    let mode ← value.name?.bind OutputMode.ofWord?
    return { l with outputMode := some mode }
  | "framework_only" => value.flag?.map fun b => { l with frameworkOnly := some b }
  | "non_framework_prefixes" => value.texts?.map fun ts => { l with outsidePrefixes := some ts }
  | "verbose" => value.flag?.map fun b => { l with verbose := some b }
  | _ => none

/-- The layer that a settings file gives. -/
def ofFile? (text : String) : Option Layer := do
  let fields ← Toml.read? text
  fields.foldlM (fun l field => l.withSetting? field.1 field.2) {}

end Layer

end ApiSurface
