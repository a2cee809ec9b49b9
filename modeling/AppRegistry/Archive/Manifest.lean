import AppRegistry.Archive.Loader
import AppRegistry.Json.Printer
import AppRegistry.Json.Reader

/-!
# Manifests

The manifest loader keeps a copy of the specification beside each local archive and loads programs
from that copy. A change is staged as a temporary file in the same directory, and applying it
renames that file into place. Relative locations start at the working directory; the path of a
temporary file is written from the root, so that the file is found again wherever the working
directory goes.
-/

namespace AppRegistry.Manifest

/-- The written form of a manifest. -/
def bytes (s : Specification) : ByteArray := (encode s).pretty.toUTF8

/-- Reads the written form of a manifest. -/
def ofBytes? (b : ByteArray) : Option Specification := Json.readRecordBytes? b >>= decode?

/-- The manifest of an archive, if there is one. -/
def read (t : FileTree) (l : ArchiveLocation) : Except LoaderError (Option Specification) :=
  match l.manifestPath? with
  | none => .error (.notLocal l)
  | some path =>
    match WrittenPath.find t path with
    | .error .notFound => .ok none
    | .error _ => .error (.cannotOpen path)
    | .ok (_, .directory) => .error (.corrupt path)
    | .ok (_, .file b) =>
      match ofBytes? b with
      | none => .error (.corrupt path)
      | some s => .ok (some s)

/-- Loads a program from the manifest of its archive. Without a manifest the stored specification
stands in. -/
def load (t : FileTree) (l : ArchiveLocation) (program : ProgramId) (kind : ProgramKind)
    (stored : Specification) : Except LoaderError LoadedProgram := do
  let specification := (← read t l).getD stored
  if (specification.program? kind program.name).isNone then
    throw (.undeclared l kind program.name)
  else pure ⟨program, kind, l, specification⟩

/-! ## Staged manifests -/

/-- A manifest in a temporary file. -/
structure Draft where
  temporary : WrittenPath
  target : WrittenPath
deriving DecidableEq, Repr

/-- A name for a temporary file. -/
def temporaryName (n : Nat) : String :=
  ".tmp" ++ String.ofList (List.leftpad 6 '0' (Nat.toDigits 10 n))

/-- Whether a path is free for a new entry. -/
def isFree (t : FileTree) (path : WrittenPath) : Bool :=
  match WrittenPath.find t path with
  | .error .notFound => true
  | _ => false

/-- The first temporary path that is free in a directory. -/
def temporaryIn? (t : FileTree) (directory : WrittenPath) : Option WrittenPath := do
  let directory ← WrittenPath.absolute? t directory
  (List.range (t.entries.size + 1)).findSome? fun n =>
    let path := WrittenPath.within directory (temporaryName n)
    if isFree t path then some path else none

/-- The directory that holds the manifest at a path. -/
def parentOf (path : WrittenPath) : WrittenPath :=
  match WrittenPath.parent? path with
  | none | some "" => "."
  | some parent => parent

/-- Writes a manifest to a temporary file beside its place. -/
def stage (l : ArchiveLocation) (s : Specification) : Script (Staging Draft) :=
  match l.manifestPath? with
  | none => pure (.refused (.notLocal l))
  | some path => do
    match ← WrittenPath.createDirectories (parentOf path) with
    | .error _ => pure (.refused (.cannotCreate (parentOf path)))
    | .ok () =>
      match ← Script.see fun t => temporaryIn? t (parentOf path) with
      | none => pure (.refused (.cannotStage path))
      | some temporary =>
        match ← WrittenPath.callAt temporary (.write · (bytes s)) with
        | .error _ => pure (.refused (.cannotStage path))
        | .ok () => pure (.staged ⟨temporary, path⟩)

/-- Drops a staged manifest. -/
def drop (d : Draft) : Script Unit := do
  let _ ← WrittenPath.callAt d.temporary .removeFile

/-- Renames a staged manifest into place. -/
def apply (d : Draft) : Script (Except LoaderError Unit) := do
  match ← WrittenPath.rename d.temporary d.target with
  | .ok () => pure (.ok ())
  | .error _ =>
    drop d
    pure (.error (.cannotWrite d.target))

/-- The loader that keeps manifests. -/
def loader (σ : Type) : Loader σ where
  Update := Draft
  stage l s := (stage l s : Script (Staging Draft))
  apply d := (LoaderOutcome.ofExcept <$> apply d : Script (LoaderOutcome Unit))
  discard d := (drop d : Script Unit)
  load l program kind s :=
    (Script.see fun t => .ofExcept (load t l program kind s) : Script (LoaderOutcome LoadedProgram))

end AppRegistry.Manifest
