import AppRegistry.Disk.Journal

/-!
# Commits

A commit runs in two phases. `Disk.prepare` writes each staged record to a file beside its target,
so that most failures surface before a committed record is touched. Then the journal is written,
`Disk.applyEach` moves committed records aside and staged files into place, and the commit lands
when the journal is removed. A failure before that restores the backups.
-/

namespace AppRegistry.Disk

/-! ## Before the journal -/

/-- Writes a staged record to its staging file. -/
def writeStaging (root : Path) (k : Key) (j : Json) : Task Unit := do
  step (directory root k) (Script.createDirectories (directory root k))
  step (stagingPath root k) (Script.make (.write (stagingPath root k) (recordBytes j)))

/-- Prepares one change. The deletion of a record that is not there needs no entry. -/
def prepareOne (root : Path) (k : Key) (v : Option Json) : Task (Option JournalEntry) := do
  let replaces ← (Script.see fun t => t.isFile (recordPath root k) : Script Bool)
  match v with
  | some j =>
    writeStaging root k j
    pure (some ⟨k, true, replaces⟩)
  | none => pure (if replaces then some ⟨k, false, true⟩ else none)

/-- Prepares changes one after another. Committed records are not touched. -/
def prepare (root : Path) : List (Key × Option Json) → Task (List JournalEntry)
  | [] => pure []
  | (k, v) :: rest => do
    let entry ← prepareOne root k v
    let entries ← prepare root rest
    pure (entry.toList ++ entries)

/-- Drops the staging files of a commit that never came to its journal. -/
def discardEach (root : Path) : List (Key × Option Json) → Script Unit
  | [] => pure ()
  | (_, none) :: rest => discardEach root rest
  | (k, some _) :: rest => do
    discard <| Script.removeIfPresent (stagingPath root k)
    prune root k
    discardEach root rest

/-- Writes the journal under another name and renames it into place. -/
def writeJournal (root : Path) (entries : List JournalEntry) : Task Unit := do
  step (journalStagingPath root)
    (Script.make (.write (journalStagingPath root) (journalBytes entries)))
  step (journalPath root) (Script.make (.rename (journalStagingPath root) (journalPath root)))

/-! ## After the journal -/

/-- Applies one entry: the committed record becomes the backup, the staged one the record. -/
def applyOne (root : Path) (e : JournalEntry) : Task Unit := do
  if e.replaces then
    step (backupPath root e.key)
      (Script.make (.rename (recordPath root e.key) (backupPath root e.key)))
  if e.write then
    step (recordPath root e.key)
      (Script.make (.rename (stagingPath root e.key) (recordPath root e.key)))

/-- Applies entries one after another. -/
def applyEach (root : Path) : List JournalEntry → Task Unit
  | [] => pure ()
  | e :: rest => do applyOne root e; applyEach root rest

/-- Applies a commit and lands it. -/
def land (root : Path) (entries : List JournalEntry) : Task Unit := do
  applyEach root entries
  removeJournal root

/-- Drops the backups of a commit that has landed and the directories it left empty. -/
def finish (root : Path) : List JournalEntry → Script Unit
  | [] => pure ()
  | e :: rest => do
    if e.replaces then discard <| Script.removeIfPresent (backupPath root e.key)
    if !e.write then prune root e.key
    finish root rest

/-- Commits staged changes, all of them or none. -/
def commit (root : Path) (staged : Changes) : Script (Except StorageError Unit) := do
  match ← (prepare root staged.toList).run with
  | .error e => discardEach root staged.toList; pure (.error e)
  | .ok [] => pure (.ok ())
  | .ok entries =>
    match ← (writeJournal root entries).run with
    | .error e => discardEach root staged.toList; pure (.error e)
    | .ok () =>
      match ← (land root entries).run with
      | .error e =>
        rollBack root entries
        discard (removeJournal root).run
        pure (.error e)
      | .ok () => finish root entries; pure (.ok ())

end AppRegistry.Disk
