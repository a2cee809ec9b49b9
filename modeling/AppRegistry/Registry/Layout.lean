import AppRegistry.Application.Id

/-!
# Storage layout

Where the registry keeps what:

* `app/<account>/<app>`: the record of an application,
* `stream/<account>/<stream>` and `dataset/<account>/<dataset>`: the catalog of an account,
* `run/<account>/<app>/<program>/<time>/<run>`: the record of a run,
* `runidx/<account>/<app>/<program>/<run>`: the start time of a run,
* `args/<account>/<app>/<program>`: the arguments of a program.

The second component is always the account, so one key for each keyspace covers all of an account.
Start times descend: an ascending scan meets the newest run first.
-/

namespace AppRegistry

/-- The parts of the store that the registry uses. -/
inductive Keyspace where
  | applications
  | streams
  | datasets
  | runs
  | runIndex
  | arguments
deriving DecidableEq, Repr

namespace Keyspace

/-- The first component of the keys of a keyspace. -/
def name : Keyspace → String
  | applications => "app"
  | streams => "stream"
  | datasets => "dataset"
  | runs => "run"
  | runIndex => "runidx"
  | arguments => "args"

/-- Every keyspace. -/
def all : List Keyspace := [applications, streams, datasets, runs, runIndex, arguments]

end Keyspace

namespace Layout

/-! ## Times -/

/-- A number in hexadecimal, with zeros in front, up to a width. -/
def fixedHex : Nat → Nat → List Char
  | 0, _ => []
  | width + 1, n => fixedHex width (n / 16) ++ [Nat.digitChar (n % 16)]

/-- A time in 16 hexadecimal digits that ascend as the time descends. -/
def descending (time : Int64) : String :=
  String.ofList (fixedHex 16 (9223372036854775807 - time.toInt).toNat)

/-! ## Keys -/

/-- The key over everything of an account in a keyspace. -/
def ofAccount (s : Keyspace) (a : AccountId) : Except KeyError Key :=
  Key.ofComponents [s.name, a.name]

/-- The key over everything of an application in a keyspace. -/
def ofApplication (s : Keyspace) (a : ApplicationId) : Except KeyError Key := do
  (← ofAccount s a.account).child a.name

/-- The key over everything of a program in a keyspace. -/
def ofProgram (s : Keyspace) (p : ProgramId) : Except KeyError Key := do
  (← ofApplication s p.application).child p.name

/-- The record of an application. -/
def application (a : ApplicationId) : Except KeyError Key := ofApplication .applications a

/-- A stream of an account. -/
def stream (a : AccountId) (name : String) : Except KeyError Key := do
  (← ofAccount .streams a).child name

/-- A dataset of an account. -/
def dataset (a : AccountId) (name : String) : Except KeyError Key := do
  (← ofAccount .datasets a).child name

/-- The record of a run. -/
def run (p : ProgramId) (start : Int64) (r : RunId) : Except KeyError Key := do
  (← (← ofProgram .runs p).child (descending start)).child r.name

/-- The start time of a run. -/
def runIndex (p : ProgramId) (r : RunId) : Except KeyError Key := do
  (← ofProgram .runIndex p).child r.name

/-- The arguments of a program. -/
def arguments (p : ProgramId) : Except KeyError Key := ofProgram .arguments p

/-- The keys that together cover everything of an account. -/
def account (a : AccountId) : Except KeyError (List Key) :=
  Keyspace.all.mapM fun s => ofAccount s a

end Layout

end AppRegistry
