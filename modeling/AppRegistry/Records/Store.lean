import AppRegistry.Disk.Basic
import AppRegistry.Records.Memory

/-!
# Stores

A store keeps its records in memory or on disk. The three parts of a transaction are there by
themselves as well, for work that has something to do between them: `Store.view` begins it,
`Store.commit` ends it, and `Store.poison` marks a store whose transaction panicked.
-/

namespace AppRegistry

/-- Records in memory or on disk. -/
inductive Store where
  | memory (m : Memory)
  | disk (d : Disk)
deriving DecidableEq

namespace Store

variable {ε α : Type}

/-- Runs a transaction and commits what it staged, if it ends with a result. -/
def transact (s : Store) (t : Transaction ε α) : Script (Ending ε α × Store) :=
  match s with
  | memory m => pure ((m.transact t).1, memory (m.transact t).2)
  | disk d => do
    let (ending, d) ← d.transact t
    pure (ending, disk d)

/-- Whether a transaction on the store panicked. -/
def isPoisoned : Store → Bool
  | memory m => m.poisoned
  | disk d => d.poisoned

/-- Marks a store whose transaction panicked. -/
def poison : Store → Store
  | memory m => memory { m with poisoned := true }
  | disk d => disk { d with poisoned := true }

/-- The committed records as a transaction sees them. -/
def snapshot (s : Store) (t : FileTree) : Snapshot :=
  match s with
  | memory m => .ofMap m.records
  | disk d => Disk.snapshot d.root t

/-- Begins a transaction, unless one has panicked. -/
def view (s : Store) : Script (Except StorageError Overlay) :=
  if s.isPoisoned then pure (.error .poisoned)
  else Script.see fun t => .ok ⟨s.snapshot t, ∅⟩

/-- Commits staged changes. -/
def commit (s : Store) (staged : Changes) : Script (Except StorageError Unit × Store) :=
  match s with
  | memory m => pure (.ok (), memory (m.commit staged))
  | disk d => do
    let r ← Disk.commit d.root staged
    pure (r, disk d)

end Store

end AppRegistry
