import ApiSurface.Import.Entry
import ApiSurface.Model.Normal
import ApiSurface.Settings.Basic

/-!
# Importing a batch of entries

The entries of a source are taken in order, and the first one that cannot be had or read ends the
import: what follows it is not looked at. If all can be read, the packages that the settings keep
are brought to normal form, and a report counts what was seen.
-/

namespace ApiSurface

/-- What an import has seen and made. -/
structure Report where
  entriesVisited : Nat := 0
  filesParsed : Nat := 0
  entriesSkipped : Nat := 0
  packagesFiltered : Nat := 0
  packages : Nat := 0
  types : Nat := 0
deriving DecidableEq, Repr

/-- The result of an import. -/
structure Imported where
  api : Api
  report : Report

namespace Batch

/-- What has been read so far; the packages are listed last first. -/
structure Progress where
  visited : Nat := 0
  parsed : Nat := 0
  skipped : Nat := 0
  fragments : List Package := []

/-- Reads one more item. -/
def Progress.step (p : Progress) : Except ImportError Entry → Except ImportError Progress
  | .error cause => .error cause
  | .ok entry =>
    if entry.isSource then
      match entry.package with
      | .ok package =>
        .ok { p with
          visited := p.visited + 1
          parsed := p.parsed + 1
          fragments := package :: p.fragments }
      | .error cause => .error cause
    else .ok { p with visited := p.visited + 1, skipped := p.skipped + 1 }

/-- Reads the items in order up to the first that fails. -/
def Progress.read (p : Progress) : List (Except ImportError Entry) → Except ImportError Progress
  | [] => .ok p
  | item :: more =>
    match p.step item with
    | .ok next => next.read more
    | .error cause => .error cause

/-- How many items are taken: all, or those through the first that fails. -/
def taken (p : Progress) : List (Except ImportError Entry) → Nat
  | [] => 0
  | item :: more =>
    match p.step item with
    | .ok next => taken next more + 1
    | .error _ => 1

/-- The fragments that the settings keep. -/
def kept (s : Settings) (fragments : List Package) : List Package :=
  fragments.filter fun p => !s.leavesOut p.name

/-- The names of the packages that the settings leave out, each once. -/
def leftOut (s : Settings) (fragments : List Package) : List String :=
  ((fragments.filter fun p => s.leavesOut p.name).map Package.name).eraseDups

/-- The result of an import that has read all its entries. -/
def Progress.finish (s : Settings) (p : Progress) : Imported :=
  let fragments := p.fragments.reverse
  let api := Api.normalize (kept s fragments)
  { api
    report :=
      { entriesVisited := p.visited
        filesParsed := p.parsed
        entriesSkipped := p.skipped
        packagesFiltered := (leftOut s fragments).length
        packages := api.packages.length
        types := api.typeCount } }

end Batch

/-- Imports the entries of a source. -/
def importEntries (s : Settings) (items : List (Except ImportError Entry)) :
    Except ImportError Imported :=
  (Batch.Progress.read {} items).map (Batch.Progress.finish s)

/-- How many entries an import takes from its source. -/
def entriesTaken (items : List (Except ImportError Entry)) : Nat := Batch.taken {} items

end ApiSurface
