import AppRegistry.Proofs.Records.View
import AppRegistry.Records.Store

/-!
# Sessions of a client

A client works on a store in transactions, one after another. It chooses each step of a transaction
and each transaction by all that it has seen so far (`Session`), and between two transactions it may
close the store and open it again. What it sees of a transaction are the answers of the steps, how
the transaction ends, and all records after it (`Observation`).

A session can be held on a store (`Session.run`) or on a plain map of records (`Session.runOn`).

Main result: `Session.run_memory`. On records in memory a session sees what it sees on a map.
-/

namespace AppRegistry

variable {ε α : Type}

/-- What a client sees of one transaction. -/
structure Observation (ε α : Type) where
  /-- What the steps answer, in order. -/
  steps : List StepResult
  ending : Ending ε α
  /-- All records after the transaction, in key order. -/
  dump : Except StorageError (List (Key × Json))

/-- A client of a store. -/
inductive Session (ε α : Type) where
  | finish
  | transact (t : Transaction ε α) (next : Observation ε α → Session ε α)
  /-- Closes the store and opens it again. -/
  | reopen (next : Session ε α)

/-! ## On a map -/

/-- What is seen of a transaction on a map, and the map after it. -/
def Transaction.observeOn (t : Transaction ε α) (m : OrderedMap Key Json) :
    Observation ε α × OrderedMap Key Json :=
  match t.runOn m with
  | (.done a, copy) => (⟨t.answersOn m, .committed a, .ok copy.toList⟩, copy)
  | (.rejected e, _) => (⟨t.answersOn m, .rejected e, .ok m.toList⟩, m)
  | (.panicked, _) => (⟨t.answersOn m, .panicked, .ok m.toList⟩, m)

namespace Session

/-- What a session sees on a map of records. -/
def runOn : Session ε α → OrderedMap Key Json → List (Observation ε α)
  | finish, _ => []
  | transact t next, m => (t.observeOn m).1 :: (next (t.observeOn m).1).runOn (t.observeOn m).2
  | reopen next, m => next.runOn m

/-- No transaction of a session panics on a map, and all stay at keys in `P` and with values in
`V`. -/
def StaysIn (P : Key → Prop) (V : Json → Prop) : Session ε α → OrderedMap Key Json → Prop
  | finish, _ => True
  | transact t next, m => t.StaysIn P V m ∧ (t.runOn m).1 ≠ .panicked ∧
      (next (t.observeOn m).1).StaysIn P V (t.observeOn m).2
  | reopen next, m => next.StaysIn P V m

end Session

/-! ## On a store -/

/-- What is seen of a transaction on a store, with the store and the files after it. -/
def Store.observe (s : Store) (t : Transaction ε α) (files : FileTree) :
    Observation ε α × Store × FileTree :=
  let after := (s.transact t).run files
  (⟨Overlay.answers ⟨s.snapshot files, ∅⟩ t, after.1.1,
    (after.1.2.snapshot after.2).range (.all .root)⟩, after.1.2, after.2)

/-- What a session sees on a store whose files, if it has any, lie at a written path. It ends early
if the store cannot be opened again. -/
def Session.run (w : WrittenPath) :
    Session ε α → Store → FileTree → Except StorageError (List (Observation ε α))
  | finish, _, _ => .ok []
  | transact t next, s, files =>
    (run w (next (s.observe t files).1) (s.observe t files).2.1 (s.observe t files).2.2).map
      ((s.observe t files).1 :: ·)
  | reopen next, .memory m, files => run w next (.memory m) files
  | reopen next, .disk _, files =>
    match (Disk.openAt w).run.run files with
    | (.error e, _) => .error e
    | (.ok d, files) => run w next (.disk d) files

/-- A transaction on records in memory is seen as one on a map. -/
theorem Memory.observe_eq (m : OrderedMap Key Json) {t : Transaction ε α}
    (h : (t.runOn m).1 ≠ .panicked) (files : FileTree) :
    (Store.memory ⟨m, false⟩).observe t files =
      ((t.observeOn m).1, .memory ⟨(t.observeOn m).2, false⟩, files) := by
  have hdump : ∀ copy : OrderedMap Key Json,
      (Snapshot.ofMap copy).range (.all .root) = .ok copy.toList := fun copy => by
    rw [(Snapshot.shows_ofMap copy).range, Transaction.recordsIn_all]
  have hanswers : Overlay.answers ⟨.ofMap m, ∅⟩ t = t.answersOn m :=
    (Memory.sees ⟨m, false⟩).answers (t.staysIn_true m)
  have htransact := Memory.transact_eq m t
  unfold Store.observe Transaction.observeOn
  simp only [Store.transact, Store.snapshot, Script.run_pure, hanswers, htransact]
  generalize t.runOn m = r at h
  obtain ⟨out, copy⟩ := r
  cases out with
  | done a => simp only [hdump]
  | rejected e => simp only [hdump]
  | panicked => exact absurd rfl h

/-- **On records in memory a session sees what it sees on a map.** -/
theorem Session.run_memory {P : Key → Prop} {V : Json → Prop} {w : WrittenPath} {files : FileTree}
    {session : Session ε α} {m : OrderedMap Key Json} (h : session.StaysIn P V m) :
    session.run w (.memory ⟨m, false⟩) files = .ok (session.runOn m) := by
  induction session generalizing m with
  | finish => rfl
  | transact t next ih =>
    rw [Session.run, Memory.observe_eq m h.2.1, ih _ h.2.2]
    rfl
  | reopen next ih => exact ih h

end AppRegistry
