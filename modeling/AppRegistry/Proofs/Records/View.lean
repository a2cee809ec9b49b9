import AppRegistry.Proofs.Records.Maps
import AppRegistry.Proofs.Records.Ranges
import AppRegistry.Records.Memory

/-!
# A transaction sees a map

A transaction runs over an overlay of staged changes, but nothing in its answers tells. Every step
answers as if the steps were made directly on a copy of the committed records, and a commit turns
the records into that copy.

Main results:

* `Overlay.Sees.run` and `Overlay.Sees.answers`, for any snapshot that shows a map;
* `Memory.transact_eq_runOn`, for records in memory, with what becomes of the records.

The invariant is `Overlay.Sees`: the staged changes, made to the records of the snapshot, give the
copy. Each kind of step keeps it.
-/

namespace AppRegistry

variable {ε α : Type} {P : Key → Prop} {V : Json → Prop}

/-! ## What the steps answer -/

/-- What one step of a transaction answers. -/
inductive StepResult where
  | read (r : Except StorageError (Option Json))
  | scanned (r : Except StorageError (List (Key × Json)))
  | written
  | deleted (r : Except StorageError Bool)

/-- The answers of the steps of a program run over committed records, in order. -/
def Overlay.answers : Overlay → Transaction ε α → List StepResult
  | _, .done _ | _, .reject _ | _, .panic => []
  | o, .read k next => .read (o.read k) :: answers o (next (o.read k))
  | o, .scan r next => .scanned (o.scan r) :: answers o (next (o.scan r))
  | o, .write k v next => .written :: answers (o.stage k (some v)) next
  | o, .delete k next =>
    match o.read k with
    | .error e => .deleted (.error e) :: answers o (next (.error e))
    | .ok v => .deleted (.ok v.isSome) :: answers (o.stage k none) (next (.ok v.isSome))

namespace Transaction

/-- The answers of the steps of a program run directly on a map, in order. -/
def answersOn : Transaction ε α → OrderedMap Key Json → List StepResult
  | done _, _ | reject _, _ | panic, _ => []
  | read k next, m => .read (.ok (m.get? k)) :: (next (.ok (m.get? k))).answersOn m
  | scan r next, m => .scanned (.ok (recordsIn m r)) :: (next (.ok (recordsIn m r))).answersOn m
  | write k v next, m => .written :: next.answersOn (m.insert k v)
  | delete k next, m =>
    .deleted (.ok (m.contains k)) :: (next (.ok (m.contains k))).answersOn (m.erase k)

/-- Whether a run on a map reads, writes and deletes only at keys in `P` and writes only values in
`V`. -/
def StaysIn (P : Key → Prop) (V : Json → Prop) : Transaction ε α → OrderedMap Key Json → Prop
  | done _, _ | reject _, _ | panic, _ => True
  | read k next, m => P k ∧ (next (.ok (m.get? k))).StaysIn P V m
  | scan r next, m => (next (.ok (recordsIn m r))).StaysIn P V m
  | write k v next, m => P k ∧ V v ∧ next.StaysIn P V (m.insert k v)
  | delete k next, m => P k ∧ (next (.ok (m.contains k))).StaysIn P V (m.erase k)

theorem staysIn_true (t : Transaction ε α) (m : OrderedMap Key Json) :
    t.StaysIn (fun _ => True) (fun _ => True) m := by
  induction t generalizing m with
  | done | reject | panic => trivial
  | read k next ih => exact ⟨trivial, ih _ m⟩
  | scan r next ih => exact ih _ m
  | write k v next ih => exact ⟨trivial, trivial, ih _⟩
  | delete k next ih => exact ⟨trivial, ih _ _⟩

theorem recordsIn_eq_filter (m : OrderedMap Key Json) (r : KeyRange) :
    recordsIn m r = (m.filter fun k _ => r.contains k).toList := rfl

/-! ## Removing a subtree -/

theorem runOn_scanOver (r : KeyRange) (m : OrderedMap Key Json) :
    (scanOver r : Transaction ε _).runOn m = (.done (.ok (recordsIn m r)), m) := rfl

theorem runOn_deleteEach (l : List Key) (m : OrderedMap Key Json) :
    (deleteEach l : Transaction ε _).runOn m = (.done (.ok ()), l.foldl (·.erase ·) m) := by
  induction l generalizing m with
  | nil => rfl
  | cons k l ih => exact ih (m.erase k)

theorem get?_foldl_erase (l : List Key) (m : OrderedMap Key Json) (k : Key) :
    (l.foldl (·.erase ·) m).get? k = if k ∈ l then none else m.get? k := by
  induction l generalizing m with
  | nil => simp
  | cons a l ih =>
    rw [List.foldl_cons, ih, OrderedMap.get?_erase]
    by_cases hk : k ∈ l
    · simp [hk]
    · by_cases ha : a = k
      · simp [ha]
      · simp [hk, ha, Ne.symm ha]

theorem contains_all (base k : Key) : (KeyRange.all base).contains k = k.isBelow base := by
  rw [Bool.eq_iff_iff, KeyRange.contains_iff, Key.isBelow, List.isPrefixOf_iff_prefix]
  constructor
  · rintro (⟨h, -⟩ | ⟨c, rest, h, -⟩)
    · exact h ▸ List.prefix_rfl
    · exact h ▸ List.prefix_append _ _
  · rintro ⟨rest, h⟩
    cases rest with
    | nil => exact .inl ⟨h.symm.trans (List.append_nil _), rfl, rfl⟩
    | cons c rest => exact .inr ⟨c, rest, h.symm, rfl⟩

/-- A scan from the root key without bounds lists every record. -/
theorem recordsIn_all (m : OrderedMap Key Json) : recordsIn m (.all .root) = m.toList := by
  unfold recordsIn
  apply List.filter_eq_self.mpr
  intro e _
  rw [contains_all]
  rfl

/-- **Removing below a key removes every record at or below it and counts them.** -/
theorem runOn_deleteBelow (k : Key) (m : OrderedMap Key Json) :
    (deleteBelow k : Transaction ε _).runOn m =
      (.done (.ok (m.filter fun l _ => l.isBelow k).size), m.filter fun l _ => !l.isBelow k) := by
  have hscan : recordsIn m (.all k) = (m.filter fun l _ => l.isBelow k).toList := by
    rw [recordsIn_eq_filter]
    simp only [contains_all]
  have hkeys : ∀ l, l ∈ (recordsIn m (.all k)).map (·.1) ↔
      l.isBelow k ∧ ∃ v, m.get? l = some v := by
    intro l
    rw [hscan, OrderedMap.mem_keys_iff, OrderedMap.get?_filter]
    cases m.get? l <;> cases l.isBelow k <;> simp [Option.filter]
  -- The keys are listed first and then erased one after another.
  have hrun : (deleteBelow k : Transaction ε _).runOn m =
      (.done (.ok (recordsIn m (.all k)).length),
        ((recordsIn m (.all k)).map (·.1)).foldl (·.erase ·) m) := by
    unfold deleteBelow
    rw [runOn_bind, runOn_scanOver]
    show ((deleteEach ((recordsIn m (.all k)).map (·.1)) : Transaction ε _) >>= _).runOn m = _
    rw [runOn_bind, runOn_deleteEach]
    rfl
  rw [hrun]
  refine Prod.ext ?_ (OrderedMap.ext_get? fun l => ?_)
  · rw [hscan]
    rfl
  · -- An erased key is one that the scan listed.
    have hl := hkeys l
    rw [get?_foldl_erase, OrderedMap.get?_filter]
    cases hm : m.get? l <;> cases hb : l.isBelow k <;> rw [hm, hb] at hl <;>
      simp [Option.filter, hl]

end Transaction

/-! ## Snapshots that show a map -/

/-- A snapshot shows a map: its scans list the records of the map, and its reads find them at the
keys in `P`. -/
structure Snapshot.Shows (s : Snapshot) (P : Key → Prop) (m : OrderedMap Key Json) : Prop where
  get : ∀ k, P k → s.get k = .ok (m.get? k)
  range : ∀ r, s.range r = .ok (Transaction.recordsIn m r)

theorem Snapshot.shows_ofMap (m : OrderedMap Key Json) :
    (Snapshot.ofMap m).Shows (fun _ => True) m :=
  ⟨fun _ _ => rfl, fun r => congrArg Except.ok (r.walk_eq_filter m.ascending)⟩

namespace Overlay

/-- A transaction over the overlay sees `copy`: the staged changes turn the records of the snapshot
into it. -/
structure Sees (P : Key → Prop) (o : Overlay) (m copy : OrderedMap Key Json) : Prop where
  base : o.base.Shows P m
  copy_eq : Changes.applyAll m o.staged.toList = copy

variable {o : Overlay} {m copy : OrderedMap Key Json}

theorem Sees.read (h : Sees P o m copy) {k : Key} (hk : P k) : o.read k = .ok (copy.get? k) := by
  rw [← h.copy_eq, Changes.get?_applyAll, Overlay.read]
  cases o.staged.get? k with
  | some v => rfl
  | none => exact h.base.get k hk

/-- A scan of the snapshot merged with the staged changes of the range is a scan of the records with
the changes made. -/
theorem scan_of_range {r : KeyRange} (h : o.base.range r = .ok (Transaction.recordsIn m r)) :
    o.scan r = .ok (Transaction.recordsIn (Changes.applyAll m o.staged.toList) r) := by
  have hwalk : r.walk o.staged.toList = (o.staged.filter fun k _ => r.contains k).toList :=
    r.walk_eq_filter o.staged.ascending
  rw [Overlay.scan, h]
  simp only [hwalk, Transaction.recordsIn_eq_filter, OrderedMap.ofList_toList,
    Changes.applyAll_filter]

theorem Sees.scan (h : Sees P o m copy) (r : KeyRange) :
    o.scan r = .ok (Transaction.recordsIn copy r) :=
  h.copy_eq ▸ scan_of_range (h.base.range r)

theorem Sees.stage (h : Sees P o m copy) (k : Key) (v : Option Json) :
    Sees P (o.stage k v) m (Changes.applyOne copy (k, v)) :=
  ⟨h.base, by rw [← h.copy_eq]; exact Changes.applyAll_insert m o.staged k v⟩

theorem Sees.run (h : Sees P o m copy) {t : Transaction ε α} (ht : t.StaysIn P V copy) :
    (o.run t).1 = (t.runOn copy).1 ∧ Sees P (o.run t).2 m (t.runOn copy).2 := by
  -- Each step of the program is one of the overlay and one of the copy, and leaves them in step.
  induction t generalizing o copy with
  | done | reject | panic => exact ⟨rfl, h⟩
  | read k next ih =>
    simp only [Overlay.run, Transaction.runOn, h.read ht.1]
    exact ih _ h ht.2
  | scan r next ih =>
    simp only [Overlay.run, Transaction.runOn, h.scan r]
    exact ih _ h ht
  | write k v next ih => exact ih (h.stage k (some v)) ht.2.2
  | delete k next ih =>
    simp only [Overlay.run, Transaction.runOn, h.read ht.1]
    exact ih _ (h.stage k none) ht.2

theorem Sees.answers (h : Sees P o m copy) {t : Transaction ε α} (ht : t.StaysIn P V copy) :
    o.answers t = t.answersOn copy := by
  induction t generalizing o copy with
  | done | reject | panic => rfl
  | read k next ih =>
    simp only [Overlay.answers, Transaction.answersOn, h.read ht.1]
    rw [ih _ h ht.2]
  | scan r next ih =>
    simp only [Overlay.answers, Transaction.answersOn, h.scan r]
    rw [ih _ h ht]
  | write k v next ih =>
    simp only [Overlay.answers, Transaction.answersOn]
    rw [ih (h.stage k (some v)) ht.2.2]
    rfl
  | delete k next ih =>
    simp only [Overlay.answers, Transaction.answersOn, h.read ht.1]
    rw [← OrderedMap.contains_eq_isSome, ih _ (h.stage k none) ht.2]
    rfl

end Overlay

/-! ## What is staged -/

/-- Changes at keys in `P` and to values in `V`. -/
def Changes.StaysIn (P : Key → Prop) (V : Json → Prop) (staged : Changes) : Prop :=
  ∀ k v, staged.get? k = some v → P k ∧ ∀ j, v = some j → V j

theorem Changes.staysIn_empty : Changes.StaysIn P V ∅ := fun k v h => by simp at h

theorem Changes.StaysIn.insert {staged : Changes} (h : staged.StaysIn P V) {k : Key}
    {v : Option Json} (hk : P k) (hv : ∀ j, v = some j → V j) :
    Changes.StaysIn P V (OrderedMap.insert staged k v) := by
  intro l w hl
  rw [OrderedMap.get?_insert] at hl
  split at hl
  · next hkl =>
    obtain rfl := Option.some.inj hl
    exact hkl ▸ ⟨hk, hv⟩
  · exact h l w hl

/-- A transaction stages changes only where it stays. -/
theorem Overlay.Sees.run_staysIn {o : Overlay} {m copy : OrderedMap Key Json}
    (h : o.Sees P m copy) {t : Transaction ε α} (ht : t.StaysIn P V copy)
    (hs : o.staged.StaysIn P V) : (o.run t).2.staged.StaysIn P V := by
  induction t generalizing o copy with
  | done | reject | panic => exact hs
  | read k next ih =>
    simp only [Overlay.run, h.read ht.1]
    exact ih _ h ht.2 hs
  | scan r next ih =>
    simp only [Overlay.run, h.scan r]
    exact ih _ h ht hs
  | write k v next ih =>
    exact ih (h.stage k (some v)) ht.2.2
      (hs.insert ht.1 fun j hj => Option.some.inj hj ▸ ht.2.1)
  | delete k next ih =>
    simp only [Overlay.run, h.read ht.1]
    exact ih _ (h.stage k none) ht.2
      (hs.insert ht.1 fun j hj => absurd hj.symm (Option.some_ne_none j))

/-! ## Records in memory -/

namespace Memory

theorem sees (m : Memory) :
    Overlay.Sees (fun _ => True) ⟨.ofMap m.records, ∅⟩ m.records m.records :=
  ⟨Snapshot.shows_ofMap m.records, Changes.applyAll_empty m.records⟩

theorem transact_of_poisoned {m : Memory} (h : m.poisoned = true) (t : Transaction ε α) :
    m.transact t = (.failed .poisoned, m) := if_pos h

theorem transact_eq (m : OrderedMap Key Json) (t : Transaction ε α) :
    (Memory.mk m false).transact t = match t.runOn m with
      | (.done a, copy) => (.committed a, ⟨copy, false⟩)
      | (.rejected e, _) => (.rejected e, ⟨m, false⟩)
      | (.panicked, _) => (.panicked, ⟨m, true⟩) := by
  obtain ⟨hout, hsees⟩ := (sees ⟨m, false⟩).run (t.staysIn_true m)
  rw [transact, if_neg (by simp)]
  generalize hr : Overlay.run ⟨.ofMap m, ∅⟩ t = r at hout hsees
  generalize hc : t.runOn m = c at hout hsees
  obtain ⟨out, o⟩ := r
  obtain ⟨out', copy⟩ := c
  cases hout
  cases out with
  | done a => exact congrArg (fun c => (Ending.committed a, Memory.mk c false)) hsees.copy_eq
  | rejected e => rfl
  | panicked => rfl

/-- The store after some transactions, one after another. -/
def after (m : Memory) (l : List (Transaction ε α)) : Memory :=
  l.foldl (fun m t => (m.transact t).2) m

theorem after_of_poisoned {m : Memory} (h : m.poisoned = true) (l : List (Transaction ε α)) :
    m.after l = m := by
  unfold after
  induction l with
  | nil => rfl
  | cons t l ih => rw [List.foldl_cons, transact_of_poisoned h, ih]

/-- **A transaction view is a plain map.** Each step answers as the same step made on a copy of the
committed records. A result makes that copy the committed records, an error leaves them as they
were, and so does a panic, after which no transaction begins any more. On the copy, removing below a
key removes all that is at or below it and counts it. -/
theorem transact_eq_runOn (m : OrderedMap Key Json) (t : Transaction ε α) :
    Overlay.answers ⟨.ofMap m, ∅⟩ t = t.answersOn m ∧
    (match t.runOn m with
      | (.done a, copy) => (Memory.mk m false).transact t = (.committed a, ⟨copy, false⟩)
      | (.rejected e, _) => (Memory.mk m false).transact t = (.rejected e, ⟨m, false⟩)
      | (.panicked, _) => (Memory.mk m false).transact t = (.panicked, ⟨m, true⟩) ∧
          ∀ {ε' α' : Type} (later : List (Transaction ε' α')) (u : Transaction ε' α'),
            ((Memory.mk m true).after later).transact u = (.failed .poisoned, ⟨m, true⟩)) ∧
    ∀ (k : Key) (copy : OrderedMap Key Json),
      (Transaction.deleteBelow k : Transaction ε _).runOn copy =
        (.done (.ok (copy.filter fun l _ => l.isBelow k).size),
          copy.filter fun l _ => !l.isBelow k) := by
  refine ⟨(sees ⟨m, false⟩).answers (t.staysIn_true m), ?_, Transaction.runOn_deleteBelow⟩
  have heq := transact_eq m t
  generalize t.runOn m = c at heq
  obtain ⟨out, copy⟩ := c
  cases out with
  | done a => exact heq
  | rejected e => exact heq
  | panicked =>
    -- Once poisoned, the records are as they are for good.
    refine ⟨heq, fun later u => ?_⟩
    rw [after_of_poisoned rfl, transact_of_poisoned rfl]

end Memory

end AppRegistry
