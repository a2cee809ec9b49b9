import AppRegistry.Records.Overlay

/-!
# Records in memory

A memory store keeps its records in one map. A transaction that panics leaves the map alone and the
store poisoned: from then on no transaction begins.
-/

namespace AppRegistry

/-- Records kept in memory. -/
structure Memory where
  records : OrderedMap Key Json
  poisoned : Bool
deriving DecidableEq

namespace Memory

variable {ε α : Type}

/-- A store without records. -/
def empty : Memory := ⟨∅, false⟩

/-- A store that begins with some records; of two with one key the later stays. -/
def ofList (l : List (Key × Json)) : Memory := ⟨.ofList l, false⟩

/-- The number of committed records, which a panic does not touch. -/
def size (m : Memory) : Nat := m.records.size

/-- Commits staged changes. -/
def commit (m : Memory) (staged : Changes) : Memory :=
  { m with records := Changes.applyAll m.records staged.toList }

/-- Runs a transaction and commits what it staged, if it ends with a result. -/
def transact (m : Memory) (t : Transaction ε α) : Ending ε α × Memory :=
  if m.poisoned then (.failed .poisoned, m)
  else
    match Overlay.run ⟨.ofMap m.records, ∅⟩ t with
    | (.done a, o) => (.committed a, m.commit o.staged)
    | (.rejected e, _) => (.rejected e, m)
    | (.panicked, _) => (.panicked, { m with poisoned := true })

end Memory

end AppRegistry
