import AppRegistry.Disk.Layout

/-!
# Commit journals

The journal of a commit lists the keys that the commit touches. While it lies at the root of the
store the commit has not landed, and `Disk.rollBack` undoes it from the files alone: a key that had
a record gets its backup back, and a key that had none loses its new record.
-/

namespace AppRegistry.Disk

/-- One key that a commit touches. -/
structure JournalEntry where
  key : Key
  /-- Whether a record is written; otherwise one is deleted. -/
  write : Bool
  /-- Whether there was a record before. -/
  replaces : Bool
deriving DecidableEq, Repr

instance : Codec JournalEntry where
  encode e := .object [("key", encode e.key), ("write", encode e.write),
    ("replaces", encode e.replaces)]
  decode? j := do
    let f ← Json.readFields? ["key", "write", "replaces"] j
    pure ⟨← f.required "key", ← f.required "write", ← f.required "replaces"⟩

/-- The written form of a journal. -/
def journalBytes (entries : List JournalEntry) : ByteArray := (encode entries).compact.toUTF8

/-- Reads the written form of a journal. -/
def readJournal? (bytes : ByteArray) : Option (List JournalEntry) :=
  Json.readRecordBytes? bytes >>= decode?

/-! ## Steps with an error -/

/-- A script that can fail. -/
abbrev Task (α : Type) := ExceptT StorageError Script α

/-- A file step that fails with the path it is about. -/
def step (about : Path) (s : Script (Except FileError Unit)) : Task Unit :=
  ExceptT.mk do
    match ← s with
    | .ok () => pure (.ok ())
    | .error e => pure (.error (.io (Path.text about) e))

/-! ## Directories of keys -/

/-- Removes empty directories, up to the first that cannot be removed. -/
def pruneEach : List Path → Script Unit
  | [] => pure ()
  | d :: rest => do
    match ← Script.make (.removeDirectory d) with
    | .ok () | .error .notFound => pruneEach rest
    | .error _ => pure ()

/-- The directory of a key and those it lies in, deepest first, without the root of the store. -/
def keyDirectories (root : Path) (k : Key) : List Path :=
  (List.range k.length).map fun i => root ++ k.components.take (k.length - i)

/-- Removes the directory of a key and every parent left empty, up to the root of the store. -/
def prune (root : Path) (k : Key) : Script Unit := pruneEach (keyDirectories root k)

/-! ## Rolling back -/

/-- Puts back the record that an entry replaced, or removes the record that it made. -/
def restore (root : Path) (e : JournalEntry) : Script Unit := do
  if e.replaces then
    if ← Script.see fun t => t.isFile (backupPath root e.key) then
      discard <| Script.make (.rename (backupPath root e.key) (recordPath root e.key))
  else if e.write then
    discard <| Script.removeIfPresent (recordPath root e.key)

/-- Undoes one entry. -/
def rollBackOne (root : Path) (e : JournalEntry) : Script Unit := do
  restore root e
  discard <| Script.removeIfPresent (stagingPath root e.key)
  prune root e.key

/-- Undoes entries one after another. -/
def rollBackEach (root : Path) : List JournalEntry → Script Unit
  | [] => pure ()
  | e :: rest => do rollBackOne root e; rollBackEach root rest

/-- Undoes a commit, newest entry first. An entry that was never applied is left as it is. -/
def rollBack (root : Path) (entries : List JournalEntry) : Script Unit :=
  rollBackEach root entries.reverse

/-- Removes the journal; there need not be one. -/
def removeJournal (root : Path) : Task Unit :=
  step (journalPath root) (Script.removeIfPresent (journalPath root))

end AppRegistry.Disk
