import ApiSurface.Archive.Contents
import ApiSurface.Files.Tree
import ApiSurface.Import.Batch

/-!
# Sources: archives and directories

The entries of an archive come in the order of its directory, those of a file tree in the order of
its names. Directories are no entries, and only of stub sources the contents are read.
-/

namespace ApiSurface

/-! ## Archives -/

/-- A path with a name added to it; a name that begins with a slash stands for itself. -/
def joinPath (path name : String) : String :=
  if name.toList.head? = some '/' ∨ path.isEmpty then name
  else if path.toList.getLast? = some '/' then path ++ name
  else path ++ "/" ++ name

/-- The entry for a record of the archive at a path, or nothing for a directory. -/
def Archive.Record.item? (path : String) (bytes : ByteArray) (r : Archive.Record) :
    Option (Except ImportError Entry) :=
  match r.contentsStart? bytes with
  | none => some (.error (.badArchive path))
  | some start =>
    if r.isDirectory then none
    else if isSourceName r.name then
      match r.contents bytes start with
      | .ok contents => some (.ok ⟨r.name, contents⟩)
      | .error cause => some (.error (.unreadable (joinPath path r.name) cause))
    else some (.ok ⟨r.name, .empty⟩)

/-- The entries for the records of the archive at a path. -/
def archiveItems (path : String) (bytes : ByteArray) (records : List Archive.Record) :
    List (Except ImportError Entry) :=
  records.filterMap (·.item? path bytes)

/-- Imports the archive at a path. -/
def importArchive (s : Settings) (path : String) (bytes : ByteArray) :
    Except ImportError Imported :=
  match Archive.records? bytes with
  | none => .error (.badArchive path)
  | some records => importEntries s (archiveItems path bytes records)

/-! ## Directories -/

/-- The entries of a file tree. -/
def FileTree.items (t : FileTree) : List (Except ImportError Entry) :=
  t.files.map fun (name, contents) =>
    .ok ⟨name, if isSourceName name then contents else .empty⟩

/-- The entries of what stands at a path, taken as a directory. -/
def directoryItems (path : String) : Except FileFault FileTree → List (Except ImportError Entry)
  | .ok t => t.items
  | .error _ => [.error (.badDirectory path)]

/-- Imports what stands at a path: a directory by its files, a file as an archive. -/
def importFound (s : Settings) (path : String) :
    Except FileFault FileTree → Except ImportError Imported
  | .error cause => .error (.unreadable path cause)
  | .ok (.directory children) => importEntries s (FileTree.directory children).items
  | .ok (.file contents) => importArchive s path contents

end ApiSurface
