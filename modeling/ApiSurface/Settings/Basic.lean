/-!
# Settings

The settings of an import, and layers that change some of them. Layers are applied in order, so a
later layer wins.
-/

namespace ApiSurface

/-- The form in which an API is described. -/
inductive OutputMode where
  | full
  | parametersOnly
  | json
deriving DecidableEq, Repr

namespace OutputMode

/-- The word for a form. -/
def word : OutputMode → String
  | full => "full"
  | parametersOnly => "parameters-only"
  | json => "json"

/-- The form that a word names. -/
def ofWord? (text : String) : Option OutputMode :=
  [full, parametersOnly, json].find? fun mode => mode.word == text

/-- The word for a form names that form. -/
theorem ofWord?_word (mode : OutputMode) : ofWord? mode.word = some mode := by
  cases mode <;> decide

end OutputMode

/-- The beginnings of the names of packages that are no part of the platform framework. -/
def defaultOutsidePrefixes : List String :=
  ["android.support.", "com.google.android.gms.", "renderscript."]

/-- The settings of an import. -/
structure Settings where
  /-- The form of the description. -/
  outputMode : OutputMode := .full
  /-- Whether packages outside the framework are left out. -/
  frameworkOnly : Bool := false
  /-- How the names of packages outside the framework begin. -/
  outsidePrefixes : List String := defaultOutsidePrefixes
  /-- Whether every entry is logged. -/
  verbose : Bool := false
deriving DecidableEq, Repr

/-- Settings of which each may be left open. -/
structure Layer where
  outputMode : Option OutputMode := none
  frameworkOnly : Option Bool := none
  outsidePrefixes : Option (List String) := none
  verbose : Option Bool := none
deriving DecidableEq, Repr

/-- Whether a layer changes nothing. -/
def Layer.isEmpty (l : Layer) : Bool := l == {}

namespace Settings

/-- The settings with those of a layer in place of theirs. -/
def apply (s : Settings) (l : Layer) : Settings where
  outputMode := l.outputMode.getD s.outputMode
  frameworkOnly := l.frameworkOnly.getD s.frameworkOnly
  outsidePrefixes := l.outsidePrefixes.getD s.outsidePrefixes
  verbose := l.verbose.getD s.verbose

/-- The settings after several layers. -/
def applyAll (s : Settings) (layers : List Layer) : Settings := layers.foldl apply s

/-- Whether a package is left out. -/
def leavesOut (s : Settings) (package : String) : Bool :=
  s.frameworkOnly && s.outsidePrefixes.any fun start => start.toList.isPrefixOf package.toList

end Settings

end ApiSurface
