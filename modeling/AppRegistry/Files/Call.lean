import AppRegistry.Files.Tree

/-!
# File calls

A file call changes a file tree in one step or fails and leaves it alone. A file is renamed over
another file, a directory only over an empty directory, and a directory is removed only when it is
empty. The working directory stays the same directory, whatever becomes of its path.
-/

namespace AppRegistry

/-- One change to a file tree. -/
inductive FileCall where
  | createDirectory (p : Path)
  /-- Creates a file or replaces what it holds. -/
  | write (p : Path) (bytes : ByteArray)
  | rename (p q : Path)
  | removeFile (p : Path)
  | removeDirectory (p : Path)

/-- The paths that a call names. -/
def FileCall.paths : FileCall → List Path
  | createDirectory p | write p _ | removeFile p | removeDirectory p => [p]
  | rename p q => [p, q]

namespace FileTree

/-- Creates an empty directory where nothing stands. -/
def createDirectory (t : FileTree) (p : Path) : Except FileError FileTree :=
  match t.slot p with
  | .error e => .error e
  | .ok (some _) => .error .alreadyExists
  | .ok none => .ok (t.place p .directory)

/-- Creates a file or replaces what it holds. -/
def write (t : FileTree) (p : Path) (bytes : ByteArray) : Except FileError FileTree :=
  match t.slot p with
  | .error e => .error e
  | .ok (some .directory) => .error .isADirectory
  | .ok _ => .ok (t.place p (.file bytes))

/-- Removes a file. -/
def removeFile (t : FileTree) (p : Path) : Except FileError FileTree :=
  match t.require p with
  | .error e => .error e
  | .ok .directory => .error .isADirectory
  | .ok (.file _) => .ok (t.remove p)

/-- Removes an empty directory. -/
def removeDirectory (t : FileTree) (p : Path) : Except FileError FileTree :=
  match t.require p with
  | .error e => .error e
  | .ok (.file _) => .error .notADirectory
  | .ok .directory =>
    if p ≠ [] ∧ t.isLeaf p then .ok { t.remove p with working := t.working.afterRemoval p }
    else .error .notEmpty

/-- Puts entries below a directory, each at its path from there. -/
def graft (t : FileTree) (p : Path) (l : List (Path × Entry)) : FileTree :=
  l.foldl (fun t e => t.place (p ++ e.1) e.2) t

/-- Moves a directory with everything below it. An empty directory that it replaces is removed. -/
def moveDirectory (t : FileTree) (p q : Path) : Except FileError FileTree :=
  if p.isPrefixOf q then .error .intoItself
  else if t.isLeaf q then
    .ok { ((t.removeBelow p).place q .directory).graft q (t.below p) with
      working := (t.working.afterRemoval q).afterMove p q }
  else .error .notEmpty

/-- Moves an entry from `p` to `q`, in place of what stands there. -/
def rename (t : FileTree) (p q : Path) : Except FileError FileTree :=
  match t.require p, t.slot q with
  | .error e, _ | _, .error e => .error e
  | .ok entry, .ok target =>
    if p = q then .ok t
    else
      match entry, target with
      | .file _, some .directory => .error .isADirectory
      | .file bytes, _ => .ok ((t.remove p).place q (.file bytes))
      | .directory, some (.file _) => .error .notADirectory
      | .directory, _ => t.moveDirectory p q

/-- The effect of a call. -/
def run (t : FileTree) : FileCall → Except FileError FileTree
  | .createDirectory p => t.createDirectory p
  | .write p bytes => t.write p bytes
  | .rename p q => t.rename p q
  | .removeFile p => t.removeFile p
  | .removeDirectory p => t.removeDirectory p

end FileTree

end AppRegistry
