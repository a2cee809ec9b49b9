import AppRegistry.Disk.Commit
import AppRegistry.Files.Written

/-!
# Records on disk

A disk store keeps its records as files below a root directory (`Disk.snapshot`, `Disk.commit`).
Opening a store rolls back a commit that was cut short and removes the files that a commit may leave
behind.
-/

namespace AppRegistry

/-- Records kept as files below a root directory. -/
structure Disk where
  root : Path
  poisoned : Bool
deriving DecidableEq, Repr

namespace Disk

/-! ## Opening a store -/

/-- Rolls back the commit whose journal lies at the root, if there is one. -/
def rollBackUnfinished (root : Path) : Task Unit := do
  match ← (Script.see fun t => t.read (journalPath root) : Script (Except FileError ByteArray)) with
  | .error .notFound => pure ()
  | .error e => throw (.io (Path.text (journalPath root)) e)
  | .ok bytes =>
    match readJournal? bytes with
    | none => throw (.journal (Path.text (journalPath root)))
    | some entries =>
      (rollBack root entries : Script Unit)
      removeJournal root

/-- Whether a file of this name is left over once no commit is under way. -/
def isLeftover (name : String) : Bool :=
  name == stagingName || name == backupName || name == journalStagingName

/-- The files left over below a root, in the order of their paths. A walk of the directories may meet
them in any order, and recovery does not depend on it. -/
def leftovers (root : Path) (t : FileTree) : List Path :=
  (t.below root).filterMap fun
    | (p, .file _) => if p.getLast?.any isLeftover then some (root ++ p) else none
    | (_, .directory) => none

/-- Removes files one after another. -/
def removeEach : List Path → Task Unit
  | [] => pure ()
  | p :: rest => do step p (Script.removeIfPresent p); removeEach rest

/-- Brings the files below a root back to what the last landed commit left. -/
def recover (root : Path) : Task Unit := do
  rollBackUnfinished root
  removeEach (← (Script.see (leftovers root) : Script (List Path)))

/-- Opens a store at an existing directory. -/
def openAt (root : WrittenPath) : Task Disk := do
  match ← (Script.see fun t => WrittenPath.find t root :
      Script (Except FileError (Path × Entry))) with
  | .error e => throw (.rootInvalid root (.unreachable e))
  | .ok (_, .file _) => throw (.rootInvalid root .notADirectory)
  | .ok (place, .directory) =>
    recover place
    pure ⟨place, false⟩

/-- Opens a store at a directory, which is created if it is missing. -/
def createAt (root : WrittenPath) : Task Disk := do
  match ← (WrittenPath.createDirectories root : Script (Except FileError Unit)) with
  | .error e => throw (.io root e)
  | .ok () => openAt root

/-! ## Transactions -/

variable {ε α : Type}

/-- Runs a transaction and commits what it staged, if it ends with a result. -/
def transact (d : Disk) (t : Transaction ε α) : Script (Ending ε α × Disk) :=
  if d.poisoned then pure (.failed .poisoned, d)
  else do
    match ← Script.see fun files => Overlay.run ⟨snapshot d.root files, ∅⟩ t with
    | (.rejected e, _) => pure (.rejected e, d)
    | (.panicked, _) => pure (.panicked, { d with poisoned := true })
    | (.done a, o) =>
      match ← commit d.root o.staged with
      | .error e => pure (.failed e, d)
      | .ok () => pure (.committed a, d)

end Disk

end AppRegistry
