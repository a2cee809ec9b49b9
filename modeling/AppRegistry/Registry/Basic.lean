import AppRegistry.Records.Store
import AppRegistry.Registry.Instances
import AppRegistry.Registry.Runs

/-!
# The registry

The registry keeps applications, catalogs and runs in a store and follows every change of a
specification with its loader. `Registry.perform` answers one operation.

A change that the loader must follow is published: the loader stages it while the transaction is
open, the transaction commits, and then the staged change is applied. A refusal leaves the store
alone, and a failed commit leaves the archive alone. If staging panics, no transaction and no
publication begins any more; if applying panics, the transaction is over, and only publications end.
-/

namespace AppRegistry

/-- What can be asked of a registry. -/
inductive Operation where
  | addApplication (id : ApplicationId) (s : Specification) (location : ArchiveLocation)
  | specification (id : ApplicationId)
  | location (id : ApplicationId)
  | lastUpdated (id : ApplicationId)
  | specifications (a : AccountId)
  | deletedPrograms (id : ApplicationId) (candidate : Specification)
  | removeApplication (id : ApplicationId)
  | removeApplications (a : AccountId)
  | removeAccount (a : AccountId)
  | streams (a : AccountId)
  | datasets (a : AccountId)
  | stream (a : AccountId) (name : String)
  | dataset (a : AccountId) (name : String)
  | setInstances (p : ProgramId) (x : Scalable) (n : UInt32)
  | instances (p : ProgramId) (x : Scalable)
  | loadProgram (p : ProgramId) (kind : ProgramKind)
  | startRun (p : ProgramId) (r : RunId) (time : Int64)
  | stopRun (p : ProgramId) (r : RunId) (time : Int64) (status : String)
  | run (p : ProgramId) (r : RunId)
  | runHistory (p : ProgramId) (low high : Int64) (limit : Nat)
  | activeRuns (p : ProgramId)
  | setArguments (p : ProgramId) (args : RunArguments)
  | arguments (p : ProgramId)
deriving DecidableEq, Repr

/-- What a registry answers. -/
inductive Reply where
  | done
  | specification (s : Option Specification)
  | location (l : Option ArchiveLocation)
  | instant (i : Option Instant)
  | specifications (l : List Specification)
  | programs (l : List ProgramDeclaration)
  | names (s : OrderedSet String)
  | stream (d : Option StreamDeclaration)
  | dataset (d : Option DatasetDeclaration)
  | count (n : UInt32)
  | program (p : LoadedProgram)
  | run (r : Option RunRecord)
  | runs (l : List RunRecord)
  | arguments (args : RunArguments)
deriving DecidableEq, Repr

/-- How an operation ends. -/
inductive Answer where
  | reply (r : Reply)
  | error (e : RegistryError)
  | panicked
deriving DecidableEq, Repr

/-- A store of records with the state of a loader. -/
structure Registry (σ : Type) where
  store : Store
  /-- Whether a publication panicked. -/
  publishingPoisoned : Bool
  loaderState : σ
deriving DecidableEq

namespace Registry

variable {σ α : Type}

/-- A registry over a store. -/
def onStore (store : Store) (loaderState : σ) : Registry σ := ⟨store, false, loaderState⟩

/-! ## Questions -/

/-- How an operation ends whose transaction ended so. -/
def answerOf (f : α → Reply) : Ending RegistryError α → Answer
  | .committed a => .reply (f a)
  | .rejected e => .error e
  | .failed e => .error (.storage e)
  | .panicked => .panicked

/-- Runs a transaction on the store. -/
def transact {ε : Type} (g : Registry σ) (t : Transaction ε α) :
    Script (Ending ε α × Registry σ) := do
  let (ending, store) ← g.store.transact t
  pure (ending, { g with store })

/-- Answers a question. -/
def query (g : Registry σ) (f : α → Reply) : Query α → Script (Answer × Registry σ)
  | .known (.ok a) => pure (.reply (f a), g)
  | .known (.error e) => pure (.error e, g)
  | .ask t => do
    let (ending, g) ← g.transact t
    pure (answerOf f ending, g)

/-! ## Publications -/

/-- Runs a step of the loader. -/
def withLoader (g : Registry σ) (step : StateT σ Script α) : Script (α × Registry σ) := do
  let (a, loaderState) ← step.run g.loaderState
  pure (a, { g with loaderState })

/-- Marks a registry in which a publication panicked. -/
def poison (g : Registry σ) : Registry σ :=
  { g with store := g.store.poison, publishingPoisoned := true }

/-- Lets the loader apply a change that has been committed. -/
def applyCommitted (L : Loader σ) (g : Registry σ) (target : String) (update : L.Update) :
    Script (Answer × Registry σ) := do
  match ← g.withLoader (L.apply update) with
  | (.error cause, g) => pure (.error (.loader target cause), g)
  | (.panicked, g) => pure (.panicked, { g with publishingPoisoned := true })
  | (.ok (), g) => pure (.reply .done, g)

/-- Commits a change and lets the loader apply it. -/
def commitAndApply (L : Loader σ) (g : Registry σ) (target : String) (staged : Changes)
    (update : L.Update) : Script (Answer × Registry σ) := do
  let (r, store) ← g.store.commit staged
  let g := { g with store }
  match r with
  | .error e =>
    let ((), g) ← g.withLoader (L.discard update)
    pure (.error (.storage e), g)
  | .ok () => applyCommitted L g target update

/-- Publishes the record that a transaction ends with. -/
def publish (L : Loader σ) (g : Registry σ) (target : String)
    (t : RegistryTransaction (Key × ApplicationRecord)) : Script (Answer × Registry σ) := do
  if g.publishingPoisoned then pure (.error (.storage .poisoned), g)
  else
    match ← g.store.view with
    | .error e => pure (.error (.storage e), g)
    | .ok view =>
      match view.run t with
      | (.rejected e, _) => pure (.error e, g)
      | (.panicked, _) => pure (.panicked, g.poison)
      | (.done (k, record), view) =>
        match ← g.withLoader (L.stage record.location record.specification) with
        | (.refused cause, g) => pure (.error (.loader target cause), g)
        | (.panicked, g) => pure (.panicked, g.poison)
        | (.staged update, g) =>
          commitAndApply L g target (view.stage k (some (encode record).sorted)).staged update

/-- Deploys a specification. Every part of it must run in at least one instance. -/
def addApplication (L : Loader σ) (g : Registry σ) (now : Instant) (id : ApplicationId)
    (s : Specification) (location : ArchiveLocation) : Script (Answer × Registry σ) :=
  match s.instanceCounts.find? (· < 1) with
  | some n => pure (.error (.invalidInstances n), g)
  | none =>
    match Layout.application id with
    | .error e => pure (.error (.storage (.key e)), g)
    | .ok k => publish L g id.text (Application.deploy id k s location now)

/-- Sets an instance count, which must be at least one. -/
def setInstances (L : Loader σ) (g : Registry σ) (now : Instant) (p : ProgramId) (x : Scalable)
    (n : UInt32) : Script (Answer × Registry σ) :=
  if n < 1 then pure (.error (.invalidInstances n), g)
  else publish L g p.text (x.patch p n now)

/-! ## Loading programs -/

/-- Loads a program of a stored application. -/
def loadProgram (L : Loader σ) (g : Registry σ) (p : ProgramId) (kind : ProgramKind) :
    Script (Answer × Registry σ) := do
  match ← g.transact (Application.required p.application) with
  | (.rejected e, g) => pure (.error e, g)
  | (.failed e, g) => pure (.error (.storage e), g)
  | (.panicked, g) => pure (.panicked, g)
  | (.committed record, g) =>
    if (record.specification.program? kind p.name).isNone then
      pure (.error (.programNotFound p kind), g)
    else
      match ← g.withLoader (L.load record.location p kind record.specification) with
      | (.error cause, g) => pure (.error (.loader p.text cause), g)
      | (.panicked, g) => pure (.panicked, g)
      | (.ok program, g) => pure (.reply (.program program), g)

/-! ## Operations -/

/-- Answers one operation at a time of day. -/
def perform (L : Loader σ) (g : Registry σ) (now : Instant) :
    Operation → Script (Answer × Registry σ)
  | .addApplication id s location => addApplication L g now id s location
  | .specification id => g.query .specification (Application.ofRecord (·.specification) id)
  | .location id => g.query .location (Application.ofRecord (·.location) id)
  | .lastUpdated id => g.query .instant (Application.ofRecord (·.lastUpdated) id)
  | .specifications a => g.query .specifications (Application.specifications a)
  | .deletedPrograms id candidate => g.query .programs (Application.deleted id candidate)
  | .removeApplication id => g.query (fun _ => .done) (Application.remove id)
  | .removeApplications a => g.query (fun _ => .done) (Application.removeAll a)
  | .removeAccount a => g.query (fun _ => .done) (Account.remove a)
  | .streams a => g.query .names (Account.streams a)
  | .datasets a => g.query .names (Account.datasets a)
  | .stream a name => g.query .stream (Account.stream a name)
  | .dataset a name => g.query .dataset (Account.dataset a name)
  | .setInstances p x n => setInstances L g now p x n
  | .instances p x => g.query .count (x.stored p)
  | .loadProgram p kind => loadProgram L g p kind
  | .startRun p r time => g.query (fun _ => .done) (Run.start p r time)
  | .stopRun p r time status => g.query (fun _ => .done) (Run.stop p r time status)
  | .run p r => g.query .run (Run.find p r)
  | .runHistory p low high limit => g.query .runs (Run.history p low high limit)
  | .activeRuns p => g.query .runs (Run.active p)
  | .setArguments p args => g.query (fun _ => .done) (Run.setArguments p args)
  | .arguments p => g.query .arguments (Run.arguments p)

end Registry

end AppRegistry
