import AppRegistry.Archive.Loader
import AppRegistry.Records.Transaction

/-!
# Registry errors

To look for something that is not there is no error. An operation that changes or loads something
fails when that is not there.
-/

namespace AppRegistry

/-- Why a run cannot start or stop. -/
inductive RunFault where
  | alreadyStarted
  | notRunning
  | alreadyStopped
deriving DecidableEq, Repr

/-- The wording of a run fault. -/
def RunFault.message : RunFault → String
  | alreadyStarted => "run was already started"
  | notRunning => "no running record"
  | alreadyStopped => "run has already stopped"

/-- A failure of a registry operation. -/
inductive RegistryError where
  | invalidRunState (program : ProgramId) (run : RunId) (fault : RunFault)
  | invalidInstances (count : UInt32)
  | applicationNotFound (id : ApplicationId)
  | programNotFound (program : ProgramId) (kind : ProgramKind)
  | runnableNotFound (program : ProgramId) (kind : ProgramKind) (runnable : String)
  | loader (target : String) (cause : LoaderError)
  | storage (cause : StorageError)
deriving DecidableEq, Repr

/-- The wording of a registry error. -/
def RegistryError.message : RegistryError → String
  | invalidRunState p r fault =>
    s!"Invalid run state for run '{r.name}' of '{p.text}': {fault.message}"
  | invalidInstances count => s!"Instance count must be at least 1, got {count.toNat}"
  | applicationNotFound id => s!"Application '{id.text}' not found"
  | programNotFound p kind => s!"No {kind.text} named '{p.text}'"
  | runnableNotFound p kind name => s!"No runnable '{name}' in {kind.text} '{p.text}'"
  | loader target cause => s!"Program loader failed for '{target}': {cause.message}"
  | storage cause => s!"Storage failure: {cause.message}"

/-! ## Transactions of the registry -/

/-- A program over the records of the registry. -/
abbrev RegistryTransaction (α : Type) := Transaction RegistryError α

/-- A question whose answer needs a transaction, or none. -/
inductive Query (α : Type) where
  | known (answer : Except RegistryError α)
  | ask (t : RegistryTransaction α)

namespace RegistryTransaction

variable {α : Type}

/-- Goes on with what a step found, and ends with the error of a step that failed. -/
def demand (t : RegistryTransaction (Except StorageError α)) : RegistryTransaction α := do
  match ← t with
  | .ok a => pure a
  | .error e => .reject (.storage e)

/-- Goes on with a key, and ends with the error of one that cannot be. -/
def demandKey (k : Except KeyError Key) : RegistryTransaction Key :=
  match k with
  | .ok k => pure k
  | .error e => .reject (.storage (.key e))

/-- The record at a key as a value of a type. -/
def fetch (α : Type) [Codec α] (k : Key) : RegistryTransaction (Option α) :=
  demand (Transaction.readAs α k)

/-- The records in a range as values of a type, in key order. -/
def fetchRange (α : Type) [Codec α] (r : KeyRange) : RegistryTransaction (List (Key × α)) :=
  demand (Transaction.scanAs α r)

/-- Writes a record. -/
def put [Codec α] (k : Key) (a : α) : RegistryTransaction Unit := Transaction.writeAs k a

end RegistryTransaction

end AppRegistry
