import AppRegistry.Application.Id
import AppRegistry.Application.Specification
import AppRegistry.Archive.Location
import AppRegistry.Instant

/-!
# Records of the registry

What the registry keeps of an application and of a run.
-/

namespace AppRegistry

/-- What is kept of an application. -/
structure ApplicationRecord where
  specification : Specification
  location : ArchiveLocation
  lastUpdated : Instant
deriving DecidableEq, Repr

instance : Codec ApplicationRecord where
  encode r := .object [("spec", encode r.specification), ("archive_location", encode r.location),
    ("last_updated", encode r.lastUpdated)]
  decode? j := do
    let f ← Json.readFields? ["spec", "archive_location", "last_updated"] j
    pure ⟨← f.required "spec", ← f.required "archive_location", ← f.required "last_updated"⟩

/-- One execution of a program. A run that has not stopped has neither a stop time nor a status. -/
structure RunRecord where
  run : RunId
  start : Int64
  stop : Option Int64
  status : Option String
deriving DecidableEq, Repr

instance : Codec RunRecord where
  encode r := .object [("run_id", encode r.run), ("start_ts", encode r.start),
    ("stop_ts", encode r.stop), ("status", encode r.status)]
  decode? j := do
    let f ← Json.readFields? ["run_id", "start_ts", "stop_ts", "status"] j
    pure ⟨← f.required "run_id", ← f.required "start_ts", ← f.optional "stop_ts",
      ← f.optional "status"⟩

namespace RunRecord

/-- A run that has just started. -/
def started (run : RunId) (start : Int64) : RunRecord := ⟨run, start, none, none⟩

/-- The run after it has stopped. -/
def stopped (r : RunRecord) (stop : Int64) (status : String) : RunRecord :=
  { r with stop, status }

/-- Whether the run has not stopped. -/
def isRunning (r : RunRecord) : Bool := r.stop.isNone

end RunRecord

/-- The arguments that a program gets when it starts. -/
abbrev RunArguments := OrderedMap String String

end AppRegistry
