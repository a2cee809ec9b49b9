import AppRegistry.Proofs.Registry.Keys
import AppRegistry.Proofs.Registry.Records
import AppRegistry.Registry.Error

/-!
# Transactions that run alike

Two transactions run alike if they take the same steps at the same keys and cannot tell records
apart that agree. Records of one application agree whenever its last update lies; any other records
agree only if they are the same.

Main results: on maps that agree where the transactions read, they end alike and leave maps that
agree there (`Alike.runOn`), and a key where they do not write keeps its record
(`Alike.get?_runOn`). `Alike.run` follows a transaction over committed records some of which cannot
be reached.
-/

namespace AppRegistry

variable {α β γ δ : Type} {m m' : OrderedMap Key Json} {k : Key} {v w : Json}

/-! ## Records that agree -/

/-- Whether two records of an application are the same but for the time of the last update. -/
def ApplicationRecord.Agrees (r r' : ApplicationRecord) : Prop :=
  r.specification = r'.specification ∧ r.location = r'.location

/-- Whether two stored values are the same, but for the time at which an application was last
updated. -/
structure Agree (k : Key) (v w : Json) : Prop where
  left : Disk.Storable v
  right : Disk.Storable w
  same : v = w ∨ (∃ a, Keyspace.applications.Holds a k) ∧
    ∃ r r' : ApplicationRecord, v = stored r ∧ w = stored r' ∧ r.Agrees r'

theorem agree_self (h : Disk.Storable v) : Agree k v v := ⟨h, h, .inl rfl⟩

theorem Agree.eq (h : Agree k v w) (hk : ∀ a, ¬ Keyspace.applications.Holds a k) : v = w :=
  h.same.elim id fun ⟨⟨a, ha⟩, _⟩ => absurd ha (hk a)

/-- The maps have records that agree at the keys in `P`. -/
def AgreeOn (P : Key → Prop) (m m' : OrderedMap Key Json) : Prop :=
  ∀ k, P k → Option.Rel (Agree k) (m.get? k) (m'.get? k)

/-- Every record of a map can be held by a record file. -/
def AllStorable (m : OrderedMap Key Json) : Prop := ∀ k v, m.get? k = some v → Disk.Storable v

theorem AllStorable.agreeOn (h : AllStorable m) (P : Key → Prop) : AgreeOn P m m := by
  intro k _
  cases hk : m.get? k with
  | none => exact .none
  | some v => exact .some (agree_self (h k v hk))

section AgreeOn
variable {P : Key → Prop}

theorem AgreeOn.insert (h : AgreeOn P m m') (hv : Agree k v w) :
    AgreeOn P (m.insert k v) (m'.insert k w) := by
  intro l hl
  rw [OrderedMap.get?_insert, OrderedMap.get?_insert]
  split
  · next hkl => exact hkl ▸ .some hv
  · exact h l hl

theorem AgreeOn.erase (h : AgreeOn P m m') (k : Key) : AgreeOn P (m.erase k) (m'.erase k) := by
  intro l hl
  rw [OrderedMap.get?_erase, OrderedMap.get?_erase]
  split
  · exact .none
  · exact h l hl

end AgreeOn

/-! ## Runs alike -/

/-- The keys that a transaction may read, and those at which it may write or delete. -/
structure Footprint where
  reads : Key → Prop
  writes : Key → Prop
  reads_of_writes : ∀ k, writes k → reads k

/-- Two transactions that take the same steps within a footprint, whichever of some records that
agree they meet, and end with results in `R`. A step of the first that fails ends it. -/
inductive Alike (F : Footprint) (R : α → β → Prop) :
    RegistryTransaction α → RegistryTransaction β → Prop
  | done {a b} (h : R a b) : Alike F R (.done a) (.done b)
  | reject (e) : Alike F R (.reject e) (.reject e)
  | read {k next next'} (hk : F.reads k) (hfails : ∀ e, next (.error e) = .reject (.storage e))
      (hnone : Alike F R (next (.ok none)) (next' (.ok none)))
      (hsome : ∀ v w, Agree k v w → Alike F R (next (.ok (some v))) (next' (.ok (some w)))) :
      Alike F R (.read k next) (.read k next')
  | scan {r next next'} (hr : ∀ k, r.contains k = true → F.reads k)
      (hfails : ∀ e, next (.error e) = .reject (.storage e))
      (h : ∀ found : List (Key × Json × Json),
        (∀ e ∈ found, r.contains e.1 = true ∧ Agree e.1 e.2.1 e.2.2) →
        Alike F R (next (.ok (found.map fun e => (e.1, e.2.1))))
          (next' (.ok (found.map fun e => (e.1, e.2.2))))) :
      Alike F R (.scan r next) (.scan r next')
  | write {k v w next next'} (hk : F.writes k) (hv : Agree k v w) (h : Alike F R next next') :
      Alike F R (.write k v next) (.write k w next')
  | delete {k next next'} (hk : F.writes k) (hfails : ∀ e, next (.error e) = .reject (.storage e))
      (h : ∀ b, Alike F R (next (.ok b)) (next' (.ok b))) :
      Alike F R (.delete k next) (.delete k next')

namespace Alike

variable {F : Footprint} {R : α → β → Prop} {S : γ → δ → Prop} {t : RegistryTransaction α}
  {t' : RegistryTransaction β}

theorem pure {a : α} {b : β} (h : R a b) : Alike F R (Pure.pure a) (Pure.pure b) := .done h

theorem bind {f : α → RegistryTransaction γ} {f' : β → RegistryTransaction δ} (h : Alike F R t t')
    (hf : ∀ a b, R a b → Alike F S (f a) (f' b)) : Alike F S (t >>= f) (t' >>= f') := by
  induction h with
  | done hab => exact hf _ _ hab
  | reject e => exact .reject e
  | read hk hfails _ _ hnone hsome =>
    exact .read hk (fun e => congrArg (Transaction.bind · f) (hfails e)) hnone hsome
  | scan hr hfails _ ih =>
    exact .scan hr (fun e => congrArg (Transaction.bind · f) (hfails e)) ih
  | write hk hv _ ih => exact .write hk hv ih
  | delete hk hfails _ ih =>
    exact .delete hk (fun e => congrArg (Transaction.bind · f) (hfails e)) ih

end Alike

/-! ## Steps of the registry -/

section Steps
open RegistryTransaction

variable {F : Footprint} {r : KeyRange}

theorem alike_demandKey (x : Except KeyError Key) :
    Alike F (fun k l => k = l ∧ x = .ok k) (demandKey x) (demandKey x) := by
  cases x with
  | error e => exact .reject _
  | ok k => exact .pure ⟨rfl, rfl⟩

theorem alike_readAt (hk : F.reads k) :
    Alike F (Option.Rel (Agree k)) (demand (Transaction.readAt k))
      (demand (Transaction.readAt k)) :=
  .read hk (fun _ => rfl) (.pure .none) fun _ _ hv => .pure (.some hv)

theorem alike_scanOver (hr : ∀ k, r.contains k = true → F.reads k) :
    Alike F (fun l l' => l.map (·.1) = l'.map (·.1) ∧ ∀ e ∈ l, r.contains e.1 = true)
      (demand (Transaction.scanOver r)) (demand (Transaction.scanOver r)) := by
  refine .scan hr (fun _ => rfl) fun found hfound => .pure ⟨?_, ?_⟩
  · rw [List.map_map, List.map_map]
    rfl
  · rintro e he
    obtain ⟨e', he', rfl⟩ := List.mem_map.mp he
    exact (hfound e' he').1

theorem alike_demand_pure (x : Except StorageError α) :
    Alike F Eq (demand (Pure.pure x)) (demand (Pure.pure x)) := by
  cases x with
  | error e => exact .reject _
  | ok a => exact .pure rfl

section Fetching
variable [Codec α]

/-- A record that is no application's is read alike. -/
theorem alike_fetch (hk : F.reads k) (happ : ∀ a, ¬ Keyspace.applications.Holds a k) :
    Alike F Eq (fetch α k) (fetch α k) := by
  refine .read hk (fun _ => rfl) (.pure rfl) fun v w hvw => ?_
  obtain rfl := hvw.eq happ
  exact alike_demand_pure _

/-- Records that are no application's are read alike. -/
theorem alike_fetchRange (hr : ∀ k, r.contains k = true → F.reads k)
    (happ : ∀ k, r.contains k = true → ∀ a, ¬ Keyspace.applications.Holds a k) :
    Alike F Eq (fetchRange α r) (fetchRange α r) := by
  refine .scan hr (fun _ => rfl) fun found hfound => ?_
  have hsame : found.map (fun e => (e.1, e.2.1)) = found.map fun e => (e.1, e.2.2) :=
    List.map_congr_left fun e he =>
      congrArg (e.1, ·) ((hfound e he).2.eq (happ e.1 (hfound e he).1))
  rw [hsame]
  exact alike_demand_pure _

end Fetching

section Applications

/-- Whatever two values that agree are read as, they are read as records that agree. -/
theorem Agree.decodeRecord (h : Agree k v w) :
    Option.Rel ApplicationRecord.Agrees (decode? v) (decode? w) := by
  rcases h.same with rfl | ⟨-, r, r', rfl, rfl, hr⟩
  · cases (decode? v : Option ApplicationRecord) with
    | none => exact .none
    | some r => exact .some ⟨rfl, rfl⟩
  · rw [decode?_stored, decode?_stored]
    exact .some hr

theorem alike_fetch_application (hk : F.reads k) :
    Alike F (Option.Rel ApplicationRecord.Agrees) (fetch ApplicationRecord k)
      (fetch ApplicationRecord k) := by
  refine .read hk (fun _ => rfl) (.pure .none) fun v w hvw => ?_
  have hdecode := hvw.decodeRecord
  show Alike F _ (demand (Pure.pure ((Transaction.decodeRecord ApplicationRecord k v).map some)))
    (demand (Pure.pure ((Transaction.decodeRecord ApplicationRecord k w).map some)))
  unfold Transaction.decodeRecord
  generalize (decode? v : Option ApplicationRecord) = x at hdecode
  generalize (decode? w : Option ApplicationRecord) = y at hdecode
  cases hdecode with
  | none => exact .reject _
  | some h => exact .pure (.some h)

theorem decodeRecords_alike {found : List (Key × Json × Json)}
    (h : ∀ e ∈ found, Agree e.1 e.2.1 e.2.2) :
    (∃ e, Transaction.decodeRecords ApplicationRecord (found.map fun e => (e.1, e.2.1)) =
        .error e ∧
      Transaction.decodeRecords ApplicationRecord (found.map fun e => (e.1, e.2.2)) = .error e) ∨
    ∃ l l', Transaction.decodeRecords ApplicationRecord (found.map fun e => (e.1, e.2.1)) = .ok l ∧
      Transaction.decodeRecords ApplicationRecord (found.map fun e => (e.1, e.2.2)) = .ok l' ∧
      l.map (·.2.specification) = l'.map (·.2.specification) := by
  induction found with
  | nil => exact .inr ⟨[], [], rfl, rfl, rfl⟩
  | cons e found ih =>
    have hdecode := (h e List.mem_cons_self).decodeRecord
    simp only [List.map_cons, Transaction.decodeRecords, Transaction.decodeRecord]
    generalize (decode? e.2.1 : Option ApplicationRecord) = x at hdecode
    generalize (decode? e.2.2 : Option ApplicationRecord) = y at hdecode
    cases hdecode with
    | none => exact .inl ⟨_, rfl, rfl⟩
    | some hr =>
      rcases ih fun e he => h e (List.mem_cons_of_mem _ he) with
        ⟨err, hl, hl'⟩ | ⟨l, l', hl, hl', hsame⟩
      · rw [hl, hl']
        exact .inl ⟨err, rfl, rfl⟩
      · rw [hl, hl']
        exact .inr ⟨_, _, rfl, rfl, by rw [List.map_cons, List.map_cons, hr.1, hsame]⟩

theorem alike_fetchRange_application (hr : ∀ k, r.contains k = true → F.reads k) :
    Alike F (fun l l' => l.map (·.2.specification) = l'.map (·.2.specification))
      (fetchRange ApplicationRecord r) (fetchRange ApplicationRecord r) := by
  refine .scan hr (fun _ => rfl) fun found hfound => ?_
  show Alike F _ (demand (Pure.pure (Transaction.decodeRecords ApplicationRecord _)))
    (demand (Pure.pure (Transaction.decodeRecords ApplicationRecord _)))
  rcases decodeRecords_alike fun e he => (hfound e he).2 with
    ⟨err, hl, hl'⟩ | ⟨l, l', hl, hl', hsame⟩
  · rw [hl, hl']
    exact .reject _
  · rw [hl, hl']
    exact .pure hsame

end Applications

theorem alike_put [Codec α] {a : α} (hk : F.writes k) (ha : Disk.Storable (stored a)) :
    Alike F Eq (put k a) (put k a) :=
  .write hk (agree_self ha) (.pure rfl)

theorem alike_deleteAt (hk : F.writes k) :
    Alike F Eq (demand (Transaction.deleteAt k)) (demand (Transaction.deleteAt k)) :=
  .delete hk (fun _ => rfl) fun _ => .pure rfl

theorem alike_deleteEach {l : List Key} (hl : ∀ k ∈ l, F.writes k) {n : Nat} :
    Alike F Eq
      (demand do match ← Transaction.deleteEach l with
        | .error e => Pure.pure (.error e)
        | .ok () => Pure.pure (.ok n))
      (demand do match ← Transaction.deleteEach l with
        | .error e => Pure.pure (.error e)
        | .ok () => Pure.pure (.ok n)) := by
  induction l with
  | nil => exact .pure rfl
  | cons k l ih =>
    exact .delete (hl k List.mem_cons_self) (fun _ => rfl)
      fun _ => ih fun k hk => hl k (List.mem_cons_of_mem _ hk)

theorem alike_deleteBelow (hk : ∀ l : Key, l.isBelow k = true → F.writes l) :
    Alike F Eq (demand (Transaction.deleteBelow k)) (demand (Transaction.deleteBelow k)) := by
  have hbelow : ∀ l, (KeyRange.all k).contains l = true → F.writes l := fun l hl =>
    hk l (Transaction.contains_all k l ▸ hl)
  refine .scan (fun l hl => F.reads_of_writes l (hbelow l hl)) (fun _ => rfl)
    fun found hfound => ?_
  have hkeys : ∀ l ∈ (found.map fun e => (e.1, e.2.1)).map (·.1), F.writes l := by
    intro l hl
    simp only [List.map_map, List.mem_map] at hl
    obtain ⟨e, he, rfl⟩ := hl
    exact hbelow e.1 (hfound e he).1
  have hsame : (found.map fun e => (e.1, e.2.2)).map (·.1) =
      (found.map fun e => (e.1, e.2.1)).map (·.1) := by
    rw [List.map_map, List.map_map]
    rfl
  have hlength : (found.map fun e => (e.1, e.2.2)).length =
      (found.map fun e => (e.1, e.2.1)).length := by
    rw [List.length_map, List.length_map]
  show Alike F Eq (demand do match ← Transaction.deleteEach _ with | _ => _)
    (demand do match ← Transaction.deleteEach _ with | _ => _)
  rw [hsame, hlength]
  exact alike_deleteEach hkeys

theorem alike_forM {l : List γ} {f : γ → RegistryTransaction Unit}
    (h : ∀ a ∈ l, Alike F Eq (f a) (f a)) : Alike F Eq (l.forM f) (l.forM f) := by
  induction l with
  | nil => exact .pure rfl
  | cons a l ih =>
    exact (h a List.mem_cons_self).bind fun _ _ _ => ih fun a ha => h a (List.mem_cons_of_mem _ ha)

end Steps

/-! ## On maps -/

/-- A run that gets through takes each step on the way. -/
theorem Transaction.of_runOn_bind {ε α β : Type} {tx : Transaction ε α} {f : α → Transaction ε β}
    {c : β} (h : (tx >>= f).runOn m = (.done c, m')) :
    ∃ a copy, tx.runOn m = (.done a, copy) ∧ (f a).runOn copy = (.done c, m') := by
  rw [Transaction.runOn_bind] at h
  generalize tx.runOn m = runs at h
  obtain ⟨a | e | _, copy⟩ := runs
  · exact ⟨a, copy, rfl, h⟩
  · cases h
  · cases h

/-- Two outcomes with results in `R`, or with one error. -/
inductive Outcome.Alike {ε : Type} (R : α → β → Prop) : Outcome ε α → Outcome ε β → Prop
  | done {a b} (h : R a b) : Alike R (.done a) (.done b)
  | rejected (e) : Alike R (.rejected e) (.rejected e)

section RunOn
open RegistryTransaction

theorem runOn_demandKey_ok (k : Key) (m : OrderedMap Key Json) :
    (demandKey (.ok k)).runOn m = (.done k, m) := rfl

theorem runOn_demandKey_error (e : KeyError) (m : OrderedMap Key Json) :
    (demandKey (.error e)).runOn m = (.rejected (.storage (.key e)), m) := rfl

theorem runOn_readAt (k : Key) (m : OrderedMap Key Json) :
    (demand (Transaction.readAt k)).runOn m = (.done (m.get? k), m) := rfl

theorem runOn_put [Codec α] (k : Key) (a : α) (m : OrderedMap Key Json) :
    (put k a).runOn m = (.done (), m.insert k (stored a)) := rfl

theorem runOn_pure (a : α) (m : OrderedMap Key Json) :
    (pure a : RegistryTransaction α).runOn m = (.done a, m) := rfl

theorem runOn_reject (e : RegistryError) (m : OrderedMap Key Json) :
    (Transaction.reject e : RegistryTransaction α).runOn m = (.rejected e, m) := rfl

theorem runOn_deleteBelow (k : Key) (m : OrderedMap Key Json) :
    (demand (Transaction.deleteBelow k)).runOn m =
      (.done (m.filter fun l _ => l.isBelow k).size, m.filter fun l _ => !l.isBelow k) := by
  unfold demand
  rw [Transaction.runOn_bind, Transaction.runOn_deleteBelow]
  rfl

end RunOn

/-- What is read of a record. -/
theorem runOn_fetch [Codec α] (k : Key) (m : OrderedMap Key Json) :
    (RegistryTransaction.fetch α k).runOn m = match m.get? k with
      | none => (.done none, m)
      | some v => match decode? v with
        | none => (.rejected (.storage (.deserialization k)), m)
        | some a => (.done (some a), m) := by
  show (RegistryTransaction.demand (Transaction.readAs α k)).runOn m = _
  unfold RegistryTransaction.demand Transaction.readAs Transaction.readAt
  rw [Transaction.runOn_bind, Transaction.runOn_bind, Transaction.runOn]
  cases m.get? k with
  | none => rfl
  | some v =>
    simp only [Transaction.runOn, Transaction.decodeRecord]
    cases (decode? v : Option α) <;> rfl

/-- What a range finds in maps that agree on it, as one list. -/
theorem AgreeOn.recordsIn {r : KeyRange} (h : AgreeOn (fun k => r.contains k = true) m m') :
    ∃ found : List (Key × Json × Json),
      (∀ e ∈ found, r.contains e.1 = true ∧ Agree e.1 e.2.1 e.2.2) ∧
      Transaction.recordsIn m r = found.map (fun e => (e.1, e.2.1)) ∧
      Transaction.recordsIn m' r = found.map fun e => (e.1, e.2.2) := by
  let P := fun (k : Key) (_ : Json) => r.contains k
  have hsome : ∀ k, ((m.filter P).get? k).isSome = ((m'.filter P).get? k).isSome := by
    intro k
    rw [OrderedMap.get?_filter, OrderedMap.get?_filter]
    by_cases hk : r.contains k = true
    · have hrel := h k hk
      generalize m.get? k = x at hrel
      generalize m'.get? k = y at hrel
      cases hrel <;> simp [P, hk]
    · cases m.get? k <;> cases m'.get? k <;> simp [P, hk]
  obtain ⟨hfst, hsnd⟩ := OrderedMap.mapValues_zip hsome
  refine ⟨((m.filter P).zip (m'.filter P)).toList, ?_, ?_, ?_⟩
  · rintro ⟨k, v, w⟩ hmem
    obtain ⟨hv, hw⟩ := OrderedMap.get?_zip_eq_some_iff.mp ((OrderedMap.mem_toList_iff _ _ _).mp hmem)
    rw [OrderedMap.get?_filter] at hv hw
    obtain ⟨hv, hk⟩ := Option.filter_eq_some_iff.mp hv
    obtain ⟨hw, -⟩ := Option.filter_eq_some_iff.mp hw
    have hrel := h k hk
    rw [hv, hw] at hrel
    cases hrel with
    | some hvw => exact ⟨hk, hvw⟩
  · exact (congrArg OrderedMap.toList hfst).symm
  · exact (congrArg OrderedMap.toList hsnd).symm

namespace Alike

variable {F : Footprint} {R : α → β → Prop} {t : RegistryTransaction α}
  {t' : RegistryTransaction β}

/-- **On maps that agree, transactions that run alike end alike**, and the maps agree after them. -/
theorem runOn (h : Alike F R t t') (hm : AgreeOn F.reads m m') :
    (t.runOn m).1.Alike R (t'.runOn m').1 ∧ AgreeOn F.reads (t.runOn m).2 (t'.runOn m').2 := by
  -- The maps are general in the induction because writes and deletions change both alike.
  induction h generalizing m m' with
  | done hab => exact ⟨.done hab, hm⟩
  | reject e => exact ⟨.rejected e, hm⟩
  | @read k next next' hk hfails _ _ hnone hsome =>
    simp only [Transaction.runOn]
    have hrel := hm k hk
    generalize m.get? k = x at hrel
    generalize m'.get? k = y at hrel
    cases hrel with
    | none => exact hnone hm
    | some hvw => exact hsome _ _ hvw hm
  | scan hr hfails _ ih =>
    obtain ⟨found, hfound, hl, hl'⟩ := AgreeOn.recordsIn fun k hk => hm k (hr k hk)
    simp only [Transaction.runOn, hl, hl']
    exact ih found hfound hm
  | write hk hv _ ih => exact ih (hm.insert hv)
  | @delete k next next' hk hfails _ ih =>
    have hcontains : m.contains k = m'.contains k := by
      have hrel := hm k (F.reads_of_writes k hk)
      rw [OrderedMap.contains_eq_isSome, OrderedMap.contains_eq_isSome]
      generalize m.get? k = x at hrel
      generalize m'.get? k = y at hrel
      cases hrel <;> rfl
    simp only [Transaction.runOn, hcontains]
    exact ih _ (hm.erase k)

/-- **A key where a transaction does not write keeps its record.** -/
theorem get?_runOn (h : Alike F R t t') (hm : AgreeOn F.reads m m') (hk : ¬ F.writes k) :
    (t.runOn m).2.get? k = m.get? k := by
  induction h generalizing m m' with
  | done | reject => rfl
  | @read l next next' hl hfails _ _ hnone hsome =>
    simp only [Transaction.runOn]
    have hrel := hm l hl
    generalize hx : m.get? l = x at hrel
    generalize m'.get? l = y at hrel
    cases hrel with
    | none => exact hnone hm
    | some hvw => exact hsome _ _ hvw hm
  | scan hr hfails _ ih =>
    obtain ⟨found, hfound, hl, -⟩ := AgreeOn.recordsIn fun k hk => hm k (hr k hk)
    simp only [Transaction.runOn, hl]
    exact ih found hfound hm
  | write hl hv _ ih =>
    rw [Transaction.runOn, ih (hm.insert hv), OrderedMap.get?_insert, if_neg]
    rintro rfl
    exact hk hl
  | @delete l next next' hl hfails _ ih =>
    rw [Transaction.runOn, ih _ (hm.erase l), OrderedMap.get?_erase, if_neg]
    rintro rfl
    exact hk hl

/-- The records that a transaction leaves can be held by record files. -/
theorem allStorable_runOn {R : α → α → Prop} (h : Alike F R t t) (hm : AllStorable m) :
    AllStorable (t.runOn m).2 := by
  intro k v hv
  by_cases hk : F.reads k
  · have hrel := (h.runOn (hm.agreeOn F.reads)).2 k hk
    rw [hv] at hrel
    cases hrel with
    | some hvw => exact hvw.left
  · rw [h.get?_runOn (hm.agreeOn F.reads) fun hw => hk (F.reads_of_writes k hw)] at hv
    exact hm k v hv

end Alike

/-! ## Over records that cannot all be reached -/

section Overlay
variable {P : Key → Prop} {o : Overlay} {copy : OrderedMap Key Json}

/-- Where the snapshot fails, a record is found only among the staged changes. -/
theorem Overlay.Sees.read_cases (h : o.Sees P m copy)
    (hfail : ∀ k, ¬ P k → ∃ e, o.base.get k = .error e) (k : Key) :
    o.read k = .ok (copy.get? k) ∨ ¬ P k ∧ ∃ e, o.read k = .error e := by
  by_cases hk : P k
  · exact .inl (h.read hk)
  · rw [← h.copy_eq, Changes.get?_applyAll, Overlay.read]
    cases o.staged.get? k with
    | some v => exact .inl rfl
    | none => exact .inr ⟨hk, hfail k hk⟩

/-- **A transaction over records of which some cannot be reached** sees a map, or it ends with the
error of a key that it cannot reach. -/
theorem Alike.run {F : Footprint} {R : α → β → Prop} {t : RegistryTransaction α}
    {t' : RegistryTransaction β} (h : Alike F R t t') (hsees : o.Sees P m copy)
    (hfail : ∀ k, ¬ P k → ∃ e, o.base.get k = .error e) (hcopy : AgreeOn F.reads copy m')
    (hstaged : o.staged.StaysIn F.writes Disk.Storable) :
    (∃ e k, (o.run t).1 = .rejected (.storage e) ∧ F.reads k ∧ ¬ P k) ∨
      (o.run t).1 = (t.runOn copy).1 ∧ (o.run t).2.Sees P m (t.runOn copy).2 ∧
      (o.run t).2.staged.StaysIn F.writes Disk.Storable := by
  induction h generalizing o copy m' with
  | done | reject => exact .inr ⟨rfl, hsees, hstaged⟩
  | @read k next next' hk hfails _ _ hnone hsome =>
    simp only [Overlay.run, Transaction.runOn]
    rcases hsees.read_cases hfail k with hread | ⟨hP, e, hread⟩
    · have hrel := hcopy k hk
      rw [hread]
      generalize copy.get? k = x at hrel
      generalize m'.get? k = y at hrel
      cases hrel with
      | none => exact hnone hsees hfail hcopy hstaged
      | some hvw => exact hsome _ _ hvw hsees hfail hcopy hstaged
    · rw [hread, hfails]
      exact .inl ⟨e, k, rfl, hk, hP⟩
  | scan hr hfails _ ih =>
    obtain ⟨found, hfound, hl, -⟩ := AgreeOn.recordsIn fun k hk => hcopy k (hr k hk)
    simp only [Overlay.run, Transaction.runOn, hsees.scan, hl]
    exact ih found hfound hsees hfail hcopy hstaged
  | @write k v w next next' hk hv _ ih =>
    exact ih (hsees.stage k (some v)) hfail (hcopy.insert hv)
      (hstaged.insert hk fun j hj => Option.some.inj hj ▸ hv.left)
  | @delete k next next' hk hfails _ ih =>
    simp only [Overlay.run, Transaction.runOn]
    rcases hsees.read_cases hfail k with hread | ⟨hP, e, hread⟩
    · rw [hread]
      exact ih _ (hsees.stage k none) hfail (hcopy.erase k)
        (hstaged.insert hk fun j hj => absurd hj.symm (Option.some_ne_none j))
    · rw [hread]
      simp only [hfails]
      exact .inl ⟨e, k, rfl, F.reads_of_writes k hk, hP⟩

end Overlay

end AppRegistry
