import AppRegistry.Records.Transaction

/-!
# Overlays

A transaction runs over committed records without touching them: its writes and deletions are
staged in an overlay, where its own reads and scans find them first. The store then commits the
staged changes or drops them.
-/

namespace AppRegistry

/-- The committed records as a transaction sees them. -/
structure Snapshot where
  get : Key → Except StorageError (Option Json)
  range : KeyRange → Except StorageError (List (Key × Json))

/-- Staged changes by key; an absent value is a deletion. -/
abbrev Changes := OrderedMap Key (Option Json)

/-- Walks an ascending list from the start of a range to the first key past it and keeps what the
range contains. -/
def KeyRange.walk {α : Type} (r : KeyRange) (l : List (Key × α)) : List (Key × α) :=
  ((l.dropWhile fun e => compare e.1.components r.start == .lt).takeWhile fun e =>
    !r.isPast e.1).filter fun e => r.contains e.1

/-- The snapshot of a map of records. -/
def Snapshot.ofMap (m : OrderedMap Key Json) : Snapshot where
  get k := .ok (m.get? k)
  range r := .ok (r.walk m.toList)

namespace Changes

/-- Makes one staged change to a map of records. -/
def applyOne (m : OrderedMap Key Json) : Key × Option Json → OrderedMap Key Json
  | (k, some v) => m.insert k v
  | (k, none) => m.erase k

/-- Makes staged changes to a map of records, one after another. -/
def applyAll (m : OrderedMap Key Json) (l : List (Key × Option Json)) : OrderedMap Key Json :=
  l.foldl applyOne m

end Changes

/-- Staged changes over committed records. -/
structure Overlay where
  base : Snapshot
  staged : Changes

namespace Overlay

variable {ε α β : Type}

/-- The record at a key as the transaction sees it. -/
def read (o : Overlay) (k : Key) : Except StorageError (Option Json) :=
  match o.staged.get? k with
  | some v => .ok v
  | none => o.base.get k

/-- The records in a range as the transaction sees them. -/
def scan (o : Overlay) (r : KeyRange) : Except StorageError (List (Key × Json)) :=
  match o.base.range r with
  | .error e => .error e
  | .ok found => .ok (Changes.applyAll (.ofList found) (r.walk o.staged.toList)).toList

/-- Stages a change. -/
def stage (o : Overlay) (k : Key) (v : Option Json) : Overlay :=
  { o with staged := o.staged.insert k v }

/-- Runs a program over committed records and stages its changes. -/
def run : Overlay → Transaction ε α → Outcome ε α × Overlay
  | o, .done a => (.done a, o)
  | o, .reject e => (.rejected e, o)
  | o, .panic => (.panicked, o)
  | o, .read k next => run o (next (o.read k))
  | o, .scan r next => run o (next (o.scan r))
  | o, .write k v next => run (o.stage k (some v)) next
  | o, .delete k next =>
    match o.read k with
    | .error e => run o (next (.error e))
    | .ok v => run (o.stage k none) (next (.ok v.isSome))

/-- Programs run over one overlay one after another. -/
theorem run_bind (o : Overlay) (t : Transaction ε α) (f : α → Transaction ε β) :
    o.run (t >>= f) =
      match o.run t with
      | (.done a, o) => o.run (f a)
      | (.rejected e, o) => (.rejected e, o)
      | (.panicked, o) => (.panicked, o) := by
  show o.run (t.bind f) = _
  induction t generalizing o with
  | done | reject | panic => rfl
  | read k next ih => exact ih _ o
  | scan r next ih => exact ih _ o
  | write k v next ih => exact ih (o.stage k (some v))
  | delete k next ih =>
    simp only [Transaction.bind, run]
    split
    · exact ih _ o
    · exact ih _ (o.stage k none)

end Overlay

end AppRegistry
