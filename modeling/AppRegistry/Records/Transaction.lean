import AppRegistry.Json.Codec
import AppRegistry.Key.Range
import AppRegistry.Records.Error

/-!
# Transactions

A transaction is a program over keyed records: it reads, scans, writes and deletes, and chooses each
step by the results so far. It ends with a result, with an error of its own, or in a panic. What a
step does is not said here: `Overlay.run` runs a transaction over committed records without touching
them, and `Transaction.runOn` runs one directly on a map.
-/

namespace AppRegistry

/-- A program over keyed records with results in `α` and errors in `ε`. -/
inductive Transaction (ε α : Type) where
  | done (a : α)
  | reject (e : ε)
  | panic
  | read (key : Key) (next : Except StorageError (Option Json) → Transaction ε α)
  | scan (range : KeyRange) (next : Except StorageError (List (Key × Json)) → Transaction ε α)
  | write (key : Key) (value : Json) (next : Transaction ε α)
  | delete (key : Key) (next : Except StorageError Bool → Transaction ε α)

/-- How the program of a transaction ends. -/
inductive Outcome (ε α : Type) where
  | done (a : α)
  | rejected (e : ε)
  | panicked
deriving DecidableEq, Repr

/-- How a transaction ends: a failed one got a result and could not commit it, or never began. -/
inductive Ending (ε α : Type) where
  | committed (a : α)
  | rejected (e : ε)
  | failed (e : StorageError)
  | panicked
deriving DecidableEq, Repr

namespace Transaction

variable {ε α β : Type}

/-- Runs one program and then the program chosen by its result. -/
protected def bind : Transaction ε α → (α → Transaction ε β) → Transaction ε β
  | done a, f => f a
  | reject e, _ => reject e
  | panic, _ => panic
  | read k next, f => read k fun r => (next r).bind f
  | scan g next, f => scan g fun r => (next r).bind f
  | write k v next, f => write k v (next.bind f)
  | delete k next, f => delete k fun r => (next r).bind f

instance : Monad (Transaction ε) where
  pure := done
  bind := Transaction.bind

instance : LawfulMonad (Transaction ε) := LawfulMonad.mk' (Transaction ε)
  (fun t => by
    induction t with
    | done a => rfl
    | reject e => rfl
    | panic => rfl
    | read k next ih => exact congrArg (read k) (funext ih)
    | scan r next ih => exact congrArg (scan r) (funext ih)
    | write k v next ih => exact congrArg (write k v) ih
    | delete k next ih => exact congrArg (delete k) (funext ih))
  (fun _ _ => rfl)
  (fun t f g => by
    induction t with
    | done a => rfl
    | reject e => rfl
    | panic => rfl
    | read k next ih => exact congrArg (read k) (funext ih)
    | scan r next ih => exact congrArg (scan r) (funext ih)
    | write k v next ih => exact congrArg (write k v) ih
    | delete k next ih => exact congrArg (delete k) (funext ih))

/-! ## Steps -/

/-- The record at a key. -/
def readAt (k : Key) : Transaction ε (Except StorageError (Option Json)) := read k done

/-- The records in a range, in key order. -/
def scanOver (r : KeyRange) : Transaction ε (Except StorageError (List (Key × Json))) :=
  scan r done

/-- Puts a record at a key, in place of what was there. -/
def writeAt (k : Key) (v : Json) : Transaction ε Unit := write k v (done ())

/-- Removes the record at a key and tells whether there was one. -/
def deleteAt (k : Key) : Transaction ε (Except StorageError Bool) := delete k done

/-- Removes the records at some keys. -/
def deleteEach : List Key → Transaction ε (Except StorageError Unit)
  | [] => pure (.ok ())
  | k :: rest => do
    match ← deleteAt k with
    | .error e => pure (.error e)
    | .ok _ => deleteEach rest

/-- Removes every record at or below a key and tells how many there were. -/
def deleteBelow (k : Key) : Transaction ε (Except StorageError Nat) := do
  match ← scanOver (.all k) with
  | .error e => pure (.error e)
  | .ok found =>
    match ← deleteEach (found.map (·.1)) with
    | .error e => pure (.error e)
    | .ok () => pure (.ok found.length)

/-! ## Typed records -/

/-- A record as a value of a type. -/
def decodeRecord (α : Type) [Codec α] (k : Key) (j : Json) : Except StorageError α :=
  match decode? j with
  | some a => .ok a
  | none => .error (.deserialization k)

/-- The record at a key as a value of a type. -/
def readAs (α : Type) [Codec α] (k : Key) : Transaction ε (Except StorageError (Option α)) := do
  match ← readAt k with
  | .error e => pure (.error e)
  | .ok none => pure (.ok none)
  | .ok (some j) => pure ((decodeRecord α k j).map some)

/-- Decodes records one by one up to the first that does not have the form. -/
def decodeRecords (α : Type) [Codec α] : List (Key × Json) → Except StorageError (List (Key × α))
  | [] => .ok []
  | (k, j) :: rest => do
    let a ← decodeRecord α k j
    let found ← decodeRecords α rest
    pure ((k, a) :: found)

/-- The records in a range as values of a type. -/
def scanAs (α : Type) [Codec α] (r : KeyRange) :
    Transaction ε (Except StorageError (List (Key × α))) := do
  match ← scanOver r with
  | .error e => pure (.error e)
  | .ok found => pure (decodeRecords α found)

/-- Writes a value that may turn out to have no JSON form. -/
def writeEncoded (k : Key) : Except String Json → Transaction ε (Except StorageError Unit)
  | .error reason => pure (.error (.serialization k reason))
  | .ok j => do writeAt k j; pure (.ok ())

/-- Writes a value of a type; the fields of a stored record ascend by name. -/
def writeAs [Codec α] (k : Key) (a : α) : Transaction ε Unit := writeAt k (encode a).sorted

/-! ## Direct execution on a map -/

/-- The records of a map that a range contains, in key order. -/
def recordsIn (m : OrderedMap Key Json) (r : KeyRange) : List (Key × Json) :=
  m.toList.filter fun e => r.contains e.1

/-- Runs a program directly on a map of records. -/
def runOn : Transaction ε α → OrderedMap Key Json → Outcome ε α × OrderedMap Key Json
  | done a, m => (.done a, m)
  | reject e, m => (.rejected e, m)
  | panic, m => (.panicked, m)
  | read k next, m => (next (.ok (m.get? k))).runOn m
  | scan r next, m => (next (.ok (recordsIn m r))).runOn m
  | write k v next, m => next.runOn (m.insert k v)
  | delete k next, m => (next (.ok (m.contains k))).runOn (m.erase k)

/-- Programs run on a map one after another. -/
theorem runOn_bind (t : Transaction ε α) (f : α → Transaction ε β) (m : OrderedMap Key Json) :
    (t >>= f).runOn m =
      match t.runOn m with
      | (.done a, m) => (f a).runOn m
      | (.rejected e, m) => (.rejected e, m)
      | (.panicked, m) => (.panicked, m) := by
  show (t.bind f).runOn m = _
  induction t generalizing m with
  | done | reject | panic => rfl
  | read k next ih => exact ih _ m
  | scan r next ih => exact ih _ m
  | write k v next ih => exact ih (m.insert k v)
  | delete k next ih => exact ih _ (m.erase k)

end Transaction

end AppRegistry
