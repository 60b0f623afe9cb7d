import ApiSurface.Json.Decode
import ApiSurface.Settings.Basic

/-!
# Settings as JSON

A layer names only known settings, and a setting that is null or missing is left open. In settings
a missing one takes its default, and none may be null.
-/

namespace ApiSurface

open Json

/-- The names of the settings, in order. -/
def settingNames : List String :=
  ["output_mode", "framework_only", "non_framework_prefixes", "verbose"]

/-- The form of the description that a value names. -/
def OutputMode.ofJson? (v : Json) : Option OutputMode := v.name?.bind ofWord?

namespace Layer

/-- The layer with the given fields. -/
def ofFields? (fields : List (String × Json)) : Option Layer := do
  let outputMode ← optional? fields "output_mode" OutputMode.ofJson?
  let frameworkOnly ← optional? fields "framework_only" bool?
  let outsidePrefixes ← optional? fields "non_framework_prefixes" (list? string?)
  let verbose ← optional? fields "verbose" bool?
  return { outputMode, frameworkOnly, outsidePrefixes, verbose }

/-- The layer that a value describes. -/
def ofJson? (v : Json) : Option Layer := do
  let fields ← v.record? settingNames 0
  if fields.all fun field => settingNames.contains field.1 then ofFields? fields else none

/-- A layer as JSON. -/
def toJson (l : Layer) : Json :=
  .object
    [("output_mode", .optional (l.outputMode.map OutputMode.word)),
      ("framework_only", (l.frameworkOnly.map Json.bool).getD .null),
      ("non_framework_prefixes", (l.outsidePrefixes.map Json.strings).getD .null),
      ("verbose", (l.verbose.map Json.bool).getD .null)]

end Layer

namespace Settings

/-- The settings that a value describes. -/
def ofJson? (v : Json) : Option Settings := do
  let fields ← v.record? settingNames 0
  let outputMode ← defaulted? fields "output_mode" OutputMode.ofJson? .full
  let frameworkOnly ← defaulted? fields "framework_only" bool? false
  let outsidePrefixes ←
    defaulted? fields "non_framework_prefixes" (list? string?) defaultOutsidePrefixes
  let verbose ← defaulted? fields "verbose" bool? false
  return { outputMode, frameworkOnly, outsidePrefixes, verbose }

/-- Settings as JSON. -/
def toJson (s : Settings) : Json :=
  .object
    [("output_mode", .string s.outputMode.word), ("framework_only", .bool s.frameworkOnly),
      ("non_framework_prefixes", .strings s.outsidePrefixes), ("verbose", .bool s.verbose)]

end Settings

end ApiSurface
