import ApiSurface.Files.Fault

/-!
# Trees of files

A file tree is a file with its contents, or a directory with named trees. Paths are resolved from a
directory: their parts are separated by slashes, an empty part or a single point stays in place,
and two points go to the directory above. A path that ends with a slash names a directory.
-/

namespace ApiSurface

/-- A file or a directory. -/
inductive FileTree where
  | file (contents : ByteArray)
  | directory (children : List (String × FileTree))

namespace FileTree

/-! ## Paths -/

/-- The parts of a path between slashes. -/
def pathParts (path : String) : List String :=
  path.toList.foldr (fun c parts =>
      if c = '/' then "" :: parts
      else
        match parts with
        | part :: more => (String.singleton c ++ part) :: more
        | [] => [String.singleton c])
    [""]

/-- Goes on from a directory, given by itself and the directories above it, nearest first. -/
def resolveParts : List String → FileTree → List FileTree → Except FileFault FileTree
  | [], here, _ => .ok here
  | part :: more, here, above =>
    match here with
    | file _ => .error .notDirectory
    | directory children =>
      if part = "" ∨ part = "." then resolveParts more here above
      else if part = ".." then
        match above with
        | parent :: above => resolveParts more parent above
        | [] => resolveParts more here []
      else
        match children.lookup part with
        | some child => resolveParts more child (here :: above)
        | none => .error .missing

/-- What stands at a path. Nothing stands at the empty path, nor outside the tree. -/
def resolve (root : FileTree) (path : String) : Except FileFault FileTree :=
  if path.isEmpty ∨ path.toList.head? = some '/' then .error .missing
  else resolveParts (pathParts path) root []

/-- The contents of the file at a path. -/
def read (root : FileTree) (path : String) : Except FileFault ByteArray :=
  match root.resolve path with
  | .ok (file contents) => .ok contents
  | .ok (directory _) => .error .isDirectory
  | .error cause => .error cause

/-! ## Changes -/

/-- The children with a tree of the given name. -/
def setChild (children : List (String × FileTree)) (name : String) (t : FileTree) :
    List (String × FileTree) :=
  if children.any fun child => child.1 == name then
    children.map fun child => if child.1 == name then (name, t) else child
  else children ++ [(name, t)]

/-- The tree with another tree at the path of the given names, and directories on the way to it. -/
def insert (t : FileTree) : List String → FileTree → FileTree
  | [], _ => t
  | name :: more, here =>
    let children := match here with
      | directory children => children
      | file _ => []
    let child := (children.lookup name).getD (directory [])
    directory (setChild children name (insert t more child))

/-- The names of a path that remain when those that stay in place are left out and each pair of two
points takes back the name before it. -/
def names (path : String) : List String :=
  ((pathParts path).foldl (fun names part =>
      if part = "" ∨ part = "." then names
      else if part = ".." then names.drop 1
      else part :: names) []).reverse

/-- The tree with a new file at a path at which nothing stands. The directory of the file must be
there, and the path must not name a directory. -/
def create (root : FileTree) (path : String) (contents : ByteArray) :
    Except FileFault FileTree :=
  let parts := pathParts path
  let parents := (parts.reverse.dropWhile String.isEmpty).tail.reverse
  match resolveParts parents root [] with
  | .ok (directory _) =>
    if parts.getLast? = some "" then .error .isDirectory
    else .ok (insert (file contents) (names path) root)
  | .ok (file _) => .error .notDirectory
  | .error cause => .error cause

/-- The tree with the given contents in the file at a path. -/
def write (root : FileTree) (path : String) (contents : ByteArray) :
    Except FileFault FileTree :=
  if path.isEmpty ∨ path.toList.head? = some '/' then .error .missing
  else
    match root.resolve path with
    | .ok (file _) => .ok (insert (file contents) (names path) root)
    | .ok (directory _) => .error .isDirectory
    | .error .missing => root.create path contents
    | .error cause => .error cause

/-! ## Listing -/

mutual

/-- The files of a tree with their paths from the root of the tree, directory by directory, each in
the order of its names. -/
def filesFrom (path : List String) : FileTree → List (List String × ByteArray)
  | file contents => [(path.reverse, contents)]
  | directory children =>
    ((filesOf path children).mergeSort fun a b => decide (a.1 ≤ b.1)).flatMap Prod.snd

/-- The files below each of the named trees. -/
def filesOf (path : List String) :
    List (String × FileTree) → List (String × List (List String × ByteArray))
  | [] => []
  | (name, t) :: more => (name, filesFrom (name :: path) t) :: filesOf path more

end

/-- The files of a tree in order; names on the way are joined with slashes. -/
def files (t : FileTree) : List (String × ByteArray) :=
  (t.filesFrom []).map fun (path, contents) => ("/".intercalate path, contents)

end FileTree

end ApiSurface
