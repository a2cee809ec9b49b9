import AppRegistry.Proofs.Registry.Requests

/-!
# Where an operation works

Every operation is addressed to one account. It reads, writes and deletes only at keys that lie with
that account, writes only in the keyspaces that it is about (`Operation.footprint`), and what it
answers does not depend on the times of last updates: `Operation.alike`.
-/

namespace AppRegistry

/-! ## Footprints -/

namespace Operation

/-- The account that an operation is addressed to. -/
def account : Operation → AccountId
  | addApplication id _ _ | specification id | location id | lastUpdated id | deletedPrograms id _
  | removeApplication id => id.account
  | specifications a | removeApplications a | removeAccount a | streams a | datasets a | stream a _
  | dataset a _ => a
  | setInstances p _ _ | instances p _ | loadProgram p _ | startRun p _ _ | stopRun p _ _ _
  | run p _ | runHistory p _ _ _ | activeRuns p | setArguments p _ | arguments p => p.account

/-- Where an operation may write or delete. -/
def Writes (k : Key) : Operation → Prop
  | addApplication id _ _ => Keyspace.applications.Holds id.account k ∨
    Keyspace.streams.Holds id.account k ∨ Keyspace.datasets.Holds id.account k
  | removeApplication id => Keyspace.applications.Holds id.account k ∨
    Keyspace.arguments.Holds id.account k
  | removeApplications a => Keyspace.applications.Holds a k ∨ Keyspace.arguments.Holds a k
  | removeAccount a => a.Owns k
  | setInstances p _ _ => Keyspace.applications.Holds p.account k
  | setArguments p _ => Keyspace.arguments.Holds p.account k
  | startRun p r _ | stopRun p r _ _ => Run.Owns p r k
  | _ => False

/-- Where an operation may read. -/
def Reads (k : Key) : Operation → Prop
  | startRun p r _ | stopRun p r _ _ | run p r => Run.Owns p r k
  | op => op.account.Owns k

variable {k : Key} {op : Operation}

theorem Writes.reads (h : op.Writes k) : op.Reads k := by
  cases op with
  | addApplication =>
    rcases h with h | h | h
    · exact ⟨_, h⟩
    · exact ⟨_, h⟩
    · exact ⟨_, h⟩
  | removeApplication | removeApplications => exact h.elim (⟨_, ·⟩) (⟨_, ·⟩)
  | setInstances | setArguments => exact ⟨_, h⟩
  | removeAccount | startRun | stopRun => exact h
  | _ => exact h.elim

/-- Where an operation works. -/
def footprint (op : Operation) : Footprint := ⟨op.Reads, op.Writes, fun _ h => h.reads⟩

/-- **An operation works with its own account.** -/
theorem Reads.owns (h : op.Reads k) : op.account.Owns k := by
  cases op with
  | startRun | stopRun | run => exact Run.Owns.account h
  | _ => exact h

end Operation

/-! ## Applications -/

section Transactions
open RegistryTransaction

variable {F : Footprint} {id : ApplicationId} {k : Key}

theorem Layout.holds_application (h : Layout.application id = .ok k) :
    Keyspace.applications.Holds id.account k :=
  (Layout.spells_ofApplication .applications id).holds h List.prefix_rfl

theorem Layout.owns_application (h : Layout.application id = .ok k) : id.account.Owns k :=
  ⟨_, Layout.holds_application h⟩

/-- A key of another keyspace is no application's. -/
theorem Keyspace.Holds.not_application {s : Keyspace} {b : AccountId} (h : s.Holds b k)
    (hs : s ≠ .applications) (a : AccountId) : ¬ Keyspace.applications.Holds a k :=
  fun ha => hs (h.unique ha).1

section Records
variable (hreads : ∀ k, Layout.application id = .ok k → F.reads k)
include hreads

theorem alike_record? : Alike F (Option.Rel ApplicationRecord.Agrees) (Application.record? id)
    (Application.record? id) := by
  unfold Application.record?
  cases h : Layout.application id with
  | error e => exact .pure .none
  | ok k => exact alike_fetch_application (hreads k h)

theorem alike_required : Alike F ApplicationRecord.Agrees (Application.required id)
    (Application.required id) := by
  unfold Application.required
  refine (alike_record? hreads).bind fun x y hxy => ?_
  cases hxy with
  | none => exact .reject _
  | some h => exact .pure h

/-- A question about the record of an application. -/
theorem alike_ofRecord {α : Type} (f : ApplicationRecord → α) {g : Option α → Reply}
    (hg : ∀ x y, Option.Rel ApplicationRecord.Agrees x y →
      Answer.Agrees (.reply (g (x.map f))) (.reply (g (y.map f)))) :
    ((Application.ofRecord f id).request g).Alike F ((Application.ofRecord f id).request g) := by
  refine .ask (R := fun u v => Answer.Agrees (.reply (g u)) (.reply (g v))) ?_ fun _ _ h => h
  exact (alike_record? hreads).bind fun x y hxy => .pure (hg x y hxy)

theorem alike_deleted (candidate : Specification) :
    ((Application.deleted id candidate).request .programs).Alike F
      ((Application.deleted id candidate).request .programs) := by
  refine .ask (R := Eq) ?_ fun _ _ h => h ▸ .same _
  refine (alike_record? hreads).bind fun x y hxy => ?_
  cases hxy with
  | none => exact .pure rfl
  | some h => exact .pure (by rw [h.1])

end Records

theorem alike_removeOne (hwrites : ∀ k, Layout.application id = .ok k → F.writes k)
    (harguments : ∀ k, Keyspace.arguments.Holds id.account k → F.writes k) :
    Alike F Eq (Application.removeOne id) (Application.removeOne id) := by
  unfold Application.removeOne
  cases h : Layout.application id with
  | error e => exact .pure rfl
  | ok k =>
    refine (alike_deleteAt (hwrites k h)).bind fun _ _ _ => ?_
    refine (alike_demandKey _).bind fun l l' hl => ?_
    obtain ⟨rfl, hl⟩ := hl
    refine (alike_deleteBelow fun l' hl' => harguments l' ?_).bind fun _ _ _ => .pure rfl
    exact (Layout.spells_ofApplication .arguments id).holds hl (Key.isBelow_iff.mp hl')

/-! ## Names in use -/

theorem filterMap_congr_keys {α : Type} {f : Key → Option α} {l l' : List (Key × Json)}
    (h : l.map (·.1) = l'.map (·.1)) :
    l.filterMap (fun e => f e.1) = l'.filterMap fun e => f e.1 := by
  have hkeys := congrArg (List.filterMap f) h
  rwa [List.filterMap_map, List.filterMap_map] at hkeys

/-- The single component that follows one key in another. -/
def nameBelow (base k : Key) : Option String :=
  match (k.below? base).map (·.components) with
  | some [name] => some name
  | _ => none

theorem alike_namesUnder {s : Keyspace} {a : AccountId}
    (hreads : ∀ k, s.Holds a k → F.reads k) :
    Alike F Eq (Application.namesUnder (Layout.ofAccount s a))
      (Application.namesUnder (Layout.ofAccount s a)) := by
  unfold Application.namesUnder
  cases h : Layout.ofAccount s a with
  | error e => exact .pure rfl
  | ok base =>
    refine (alike_scanOver fun k hk => hreads k ?_).bind fun l l' hl => .pure ?_
    · rw [Transaction.contains_all] at hk
      exact Layout.holds_of_isBelow h hk
    · exact congrArg OrderedSet.ofList (filterMap_congr_keys (f := nameBelow base) hl.1)

theorem alike_removeAll {a : AccountId} (hreads : ∀ k, a.Owns k → F.reads k)
    (happ : ∀ k, Keyspace.applications.Holds a k → F.writes k)
    (harguments : ∀ k, Keyspace.arguments.Holds a k → F.writes k) :
    ((Application.removeAll a).request fun _ => .done).Alike F
      ((Application.removeAll a).request fun _ => .done) := by
  refine .ask (R := Eq) ?_ fun _ _ _ => .same _
  refine (alike_namesUnder fun k hk => hreads k ⟨_, hk⟩).bind fun names names' h => ?_
  obtain rfl := h
  refine alike_forM fun name _ => ?_
  exact alike_removeOne (fun k hk => happ k (Layout.holds_application hk)) harguments

theorem alike_removeAccount {a : AccountId} (hwrites : ∀ k, a.Owns k → F.writes k) :
    ((Account.remove a).request fun _ => .done).Alike F
      ((Account.remove a).request fun _ => .done) := by
  unfold Account.remove
  cases h : Layout.account a with
  | error e => exact .known _
  | ok keys =>
    refine .ask (R := Eq) ?_ fun _ _ _ => .same _
    refine alike_forM fun k hk => ?_
    refine (alike_deleteBelow fun l hl => hwrites l ?_).bind fun _ _ _ => .pure rfl
    exact (Layout.isBelow_account_iff h).mp ⟨k, hk, hl⟩

/-! ## Catalogs -/

theorem alike_mergeCatalog {a : AccountId} (s : Specification)
    (hstreams : ∀ k, Keyspace.streams.Holds a k → F.writes k)
    (hdatasets : ∀ k, Keyspace.datasets.Holds a k → F.writes k) :
    Alike F Eq (Application.mergeCatalog a s) (Application.mergeCatalog a s) := by
  unfold Application.mergeCatalog
  refine (alike_forM fun d _ => ?_).bind fun _ _ _ => alike_forM fun d _ => ?_
  · refine (alike_demandKey _).bind fun k _ h => ?_
    obtain ⟨rfl, hk⟩ := h
    exact alike_put (hstreams k ((Layout.spells_stream a d.name).holds hk List.prefix_rfl))
      (storable_stored (tame_encode_stream d) (by decide))
  · refine (alike_demandKey _).bind fun k _ h => ?_
    obtain ⟨rfl, hk⟩ := h
    exact alike_put (hdatasets k ((Layout.spells_dataset a d.name).holds hk List.prefix_rfl))
      (storable_stored (tame_encode_dataset d) (by decide))

/-- A question for one record that is no application's. -/
theorem alike_ask_fetch {α : Type} [Codec α] {s : Keyspace} {a : AccountId} (hk : s.Holds a k)
    (hs : s ≠ .applications) (hreads : ∀ k, a.Owns k → F.reads k) (f : Option α → Reply) :
    (Request.ask f (fetch α k)).Alike F (.ask f (fetch α k)) :=
  .ask (alike_fetch (hreads k ⟨s, hk⟩) (hk.not_application hs)) fun _ _ h => h ▸ .same _

theorem alike_stream {a : AccountId} {name : String} (hreads : ∀ k, a.Owns k → F.reads k) :
    ((Account.stream a name).request .stream).Alike F
      ((Account.stream a name).request .stream) := by
  unfold Account.stream
  cases h : Layout.stream a name with
  | error e => exact .known _
  | ok k =>
    have hk : Keyspace.streams.Holds a k := (Layout.spells_stream a name).holds h List.prefix_rfl
    exact alike_ask_fetch hk (by decide) hreads _

theorem alike_dataset {a : AccountId} {name : String} (hreads : ∀ k, a.Owns k → F.reads k) :
    ((Account.dataset a name).request .dataset).Alike F
      ((Account.dataset a name).request .dataset) := by
  unfold Account.dataset
  cases h : Layout.dataset a name with
  | error e => exact .known _
  | ok k =>
    have hk : Keyspace.datasets.Holds a k :=
      (Layout.spells_dataset a name).holds h List.prefix_rfl
    exact alike_ask_fetch hk (by decide) hreads _

theorem alike_specifications {a : AccountId} (hreads : ∀ k, a.Owns k → F.reads k) :
    ((Application.specifications a).request .specifications).Alike F
      ((Application.specifications a).request .specifications) := by
  unfold Application.specifications
  cases h : Layout.ofAccount .applications a with
  | error e => exact .known _
  | ok base =>
    refine .ask (R := Eq) ?_ fun _ _ h => h ▸ .same _
    refine (alike_fetchRange_application fun k hk => hreads k ?_).bind fun l l' hl => .pure hl
    rw [Transaction.contains_all] at hk
    exact ⟨_, Layout.holds_of_isBelow h hk⟩

/-! ## Publications -/

theorem alike_deploy (hk : F.writes k) (happ : ∃ a, Keyspace.applications.Holds a k)
    (s : Specification) (location : ArchiveLocation) (now now' : Instant) (target : String)
    (hstreams : ∀ k, Keyspace.streams.Holds id.account k → F.writes k)
    (hdatasets : ∀ k, Keyspace.datasets.Holds id.account k → F.writes k) :
    (Request.publish target (Application.deploy id k s location now)).Alike F
      (.publish target (Application.deploy id k s location now')) := by
  refine .publish ?_
  unfold Application.deploy
  refine (alike_fetch_application (F.reads_of_writes k hk)).bind fun _ _ _ => ?_
  refine (alike_mergeCatalog s hstreams hdatasets).bind fun _ _ _ => ?_
  exact .pure ⟨rfl, hk, happ, rfl, rfl⟩

theorem alike_patch {p : ProgramId} (x : Scalable) (n : UInt32) (now now' : Instant)
    (target : String) (hwrites : ∀ k, Layout.application p.application = .ok k → F.writes k) :
    (Request.publish target (x.patch p n now)).Alike F (.publish target (x.patch p n now')) := by
  refine .publish ?_
  unfold Scalable.patch
  refine (alike_required fun k hk => F.reads_of_writes k (hwrites k hk)).bind fun r r' hr => ?_
  rw [hr.1]
  cases x.count r'.specification p with
  | error e => exact .reject _
  | ok _ =>
    refine (alike_demandKey _).bind fun k _ h => ?_
    obtain ⟨rfl, hk⟩ := h
    exact .pure ⟨rfl, hwrites k hk, ⟨_, Layout.holds_application hk⟩, rfl, hr.2⟩

theorem alike_stored {p : ProgramId} (x : Scalable)
    (hreads : ∀ k, Layout.application p.application = .ok k → F.reads k) :
    ((x.stored p).request .count).Alike F ((x.stored p).request .count) := by
  refine .ask (R := Eq) ?_ fun _ _ h => h ▸ .same _
  refine (alike_required hreads).bind fun r r' hr => ?_
  rw [hr.1]
  cases x.count r'.specification p with
  | error e => exact .reject _
  | ok n => exact .pure rfl

/-! ## Runs -/

section Runs
variable {p : ProgramId} {r : RunId}

theorem storable_int64 (n : Int64) : Disk.Storable (stored n) :=
  storable_stored (Json.tame_encode_int64 n 0) (by decide)

theorem storable_run (x : RunRecord) : Disk.Storable (stored x) :=
  storable_stored (tame_encode_run x) (by decide)

theorem Run.Owns.not_application (h : Run.Owns p r k) (a : AccountId) :
    ¬ Keyspace.applications.Holds a k := by
  rcases h with h | ⟨t, h⟩
  · exact (Layout.holds_runIndex h).not_application (by decide) a
  · exact (Layout.holds_run h).not_application (by decide) a

/-- A run is looked up at its own keys. -/
theorem alike_runRecord? (hreads : ∀ k, Run.Owns p r k → F.reads k) :
    Alike F (fun x y => x = y ∧ ∀ k record, x = some (k, record) → Run.Owns p r k)
      (Run.record? p r) (Run.record? p r) := by
  unfold Run.record?
  cases h : Layout.runIndex p r with
  | error e => exact .pure ⟨rfl, nofun⟩
  | ok index =>
    have hindex : Run.Owns p r index := .inl h
    refine (alike_fetch (hreads index hindex) hindex.not_application).bind fun start _ hs => ?_
    obtain rfl := hs
    cases start with
    | none => exact .pure ⟨rfl, nofun⟩
    | some start =>
      refine (alike_demandKey _).bind fun k _ hk => ?_
      obtain ⟨rfl, hk⟩ := hk
      have howns : Run.Owns p r k := .inr ⟨start, hk⟩
      refine (alike_fetch (hreads k howns) howns.not_application).bind fun x _ hx => ?_
      obtain rfl := hx
      refine .pure ⟨rfl, fun k' record hx => ?_⟩
      obtain ⟨_, -, h⟩ := Option.map_eq_some_iff.mp hx
      cases h
      exact howns

theorem alike_start (time : Int64) (hwrites : ∀ k, Run.Owns p r k → F.writes k) :
    ((Run.start p r time).request fun _ => .done).Alike F
      ((Run.start p r time).request fun _ => .done) := by
  refine .ask (R := Eq) ?_ fun _ _ _ => .same _
  refine (alike_demandKey _).bind fun index _ h => ?_
  obtain ⟨rfl, hindex⟩ := h
  have howns : Run.Owns p r index := .inl hindex
  refine (alike_readAt (F.reads_of_writes _ (hwrites _ howns))).bind fun x y hxy => ?_
  cases hxy with
  | some _ => exact .reject _
  | none =>
    refine (alike_demandKey _).bind fun k _ h => ?_
    obtain ⟨rfl, hk⟩ := h
    exact (alike_put (hwrites k (.inr ⟨time, hk⟩)) (storable_run _)).bind fun _ _ _ =>
      alike_put (hwrites index howns) (storable_int64 time)

theorem alike_stop (time : Int64) (status : String)
    (hwrites : ∀ k, Run.Owns p r k → F.writes k) :
    ((Run.stop p r time status).request fun _ => .done).Alike F
      ((Run.stop p r time status).request fun _ => .done) := by
  refine .ask (R := Eq) ?_ fun _ _ _ => .same _
  refine (alike_runRecord? fun k hk => F.reads_of_writes k (hwrites k hk)).bind fun x _ hx => ?_
  obtain ⟨rfl, hx⟩ := hx
  cases x with
  | none => exact .reject _
  | some e =>
    obtain ⟨k, record⟩ := e
    simp only
    split
    · exact alike_put (hwrites k (hx k record rfl)) (storable_run _)
    · exact .reject _

theorem alike_find (hreads : ∀ k, Run.Owns p r k → F.reads k) :
    ((Run.find p r).request .run).Alike F ((Run.find p r).request .run) := by
  refine .ask (R := Eq) ?_ fun _ _ h => h ▸ .same _
  refine (alike_runRecord? hreads).bind fun x _ hx => ?_
  obtain ⟨rfl, -⟩ := hx
  exact .pure rfl

/-- A scan of the runs of a program. -/
theorem alike_runs {base : Key} {range : KeyRange} {α : Type} {f : List (Key × RunRecord) → α}
    {g : α → Reply} (hbase : Layout.ofProgram .runs p = .ok base)
    (hrange : ∀ k, range.contains k = true → k.isBelow base = true)
    (hreads : ∀ k, p.account.Owns k → F.reads k) :
    (Request.ask g (do return f (← fetchRange RunRecord range))).Alike F
      (Request.ask g (do return f (← fetchRange RunRecord range))) := by
  have hholds : ∀ k, range.contains k = true → Keyspace.runs.Holds p.account k := fun k hk =>
    (Layout.spells_ofProgram .runs p).holds hbase (Key.isBelow_iff.mp (hrange k hk))
  refine .ask (R := Eq) ?_ fun _ _ h => h ▸ .same _
  refine (alike_fetchRange (fun k hk => hreads k ⟨_, hholds k hk⟩) fun k hk =>
    (hholds k hk).not_application (by decide)).bind fun l _ h => ?_
  exact .pure (by rw [h])

theorem alike_setArguments (args : RunArguments)
    (hwrites : ∀ k, Keyspace.arguments.Holds p.account k → F.writes k) :
    ((Run.setArguments p args).request fun _ => .done).Alike F
      ((Run.setArguments p args).request fun _ => .done) := by
  refine .ask (R := Eq) ?_ fun _ _ _ => .same _
  refine (alike_demandKey _).bind fun k _ h => ?_
  obtain ⟨rfl, hk⟩ := h
  exact alike_put (hwrites k ((Layout.spells_ofProgram .arguments p).holds hk List.prefix_rfl))
    (storable_stored (Json.tame_encode_map (Json.tame_string · 0) args) (by decide))

theorem alike_arguments (hreads : ∀ k, p.account.Owns k → F.reads k) :
    ((Run.arguments p).request .arguments).Alike F ((Run.arguments p).request .arguments) := by
  unfold Run.arguments
  cases h : Layout.arguments p with
  | error e => exact .known _
  | ok k =>
    have hk : Keyspace.arguments.Holds p.account k :=
      (Layout.spells_ofProgram .arguments p).holds h List.prefix_rfl
    refine .ask (R := Eq) ?_ fun _ _ h => h ▸ .same _
    refine (alike_fetch (hreads k ⟨_, hk⟩) (hk.not_application (by decide))).bind fun _ _ h => ?_
    exact .pure (by rw [h])

end Runs

end Transactions

/-! ## Operations -/

theorem KeyRange.isBelow_of_contains {r : KeyRange} {k : Key} (h : r.contains k = true) :
    k.isBelow r.base = true := by
  rw [Key.isBelow_iff]
  rcases KeyRange.contains_iff.mp h with ⟨hk, -⟩ | ⟨c, rest, hk, -⟩
  · exact hk ▸ List.prefix_rfl
  · exact hk ▸ List.prefix_append _ _

/-- **An operation keeps to its footprint, and asks the same at any time of day.** -/
theorem Operation.alike (op : Operation) (now now' : Instant) :
    (op.request now).Alike op.footprint (op.request now') := by
  -- Each operation reads and writes at keys made of its own names, which is what its footprint
  -- lists.
  cases op with
  | addApplication id s archive =>
    simp only [Operation.request]
    cases s.instanceCounts.find? (· < 1) with
    | some n => exact .known _
    | none =>
      cases h : Layout.application id with
      | error e => exact .known _
      | ok k =>
        have hk := Layout.holds_application h
        exact alike_deploy (F := (addApplication id s archive).footprint) (.inl hk) ⟨_, hk⟩ s archive
          now now' id.text (fun _ h => .inr (.inl h)) fun _ h => .inr (.inr h)
  | specification id =>
    refine alike_ofRecord (fun _ hk => Layout.owns_application hk) _ fun x y h => ?_
    cases h with
    | none => exact .same _
    | some h =>
      rw [Option.map_some, Option.map_some, h.1]
      exact .same _
  | location id =>
    refine alike_ofRecord (fun _ hk => Layout.owns_application hk) _ fun x y h => ?_
    cases h with
    | none => exact .same _
    | some h =>
      rw [Option.map_some, Option.map_some, h.2]
      exact .same _
  | lastUpdated id =>
    refine alike_ofRecord (fun _ hk => Layout.owns_application hk) _ fun x y h => ?_
    cases h with
    | none => exact .same _
    | some h => exact .updated _ _
  | specifications a => exact alike_specifications fun _ h => h
  | deletedPrograms id candidate =>
    exact alike_deleted (fun _ hk => Layout.owns_application hk) candidate
  | removeApplication id =>
    refine .ask (R := Eq) ?_ fun _ _ _ => .same _
    exact alike_removeOne (fun k hk => .inl (Layout.holds_application hk)) fun _ h => .inr h
  | removeApplications a =>
    exact alike_removeAll (fun _ h => h) (fun _ h => .inl h) fun _ h => .inr h
  | removeAccount a => exact alike_removeAccount fun _ h => h
  | streams a =>
    exact .ask (alike_namesUnder fun _ h => ⟨_, h⟩) fun _ _ h => h ▸ .same _
  | datasets a =>
    exact .ask (alike_namesUnder fun _ h => ⟨_, h⟩) fun _ _ h => h ▸ .same _
  | stream a name => exact alike_stream fun _ h => h
  | dataset a name => exact alike_dataset fun _ h => h
  | setInstances p x n =>
    simp only [Operation.request]
    split
    · exact .known _
    · exact alike_patch x n now now' p.text fun k hk => Layout.holds_application hk
  | instances p x => exact alike_stored x fun _ hk => Layout.owns_application hk
  | loadProgram p kind =>
    exact .load (alike_required fun _ hk => Layout.owns_application hk)
  | startRun p r time => exact alike_start time fun _ h => h
  | stopRun p r time status => exact alike_stop time status fun _ h => h
  | run p r => exact alike_find fun _ h => h
  | runHistory p low high limit =>
    simp only [Operation.request, Run.history]
    split
    · exact .known _
    · cases h : Layout.ofProgram .runs p with
      | error e => exact .known _
      | ok base => exact alike_runs h (fun k hk => KeyRange.isBelow_of_contains hk) fun _ h => h
  | activeRuns p =>
    simp only [Operation.request, Run.active]
    cases h : Layout.ofProgram .runs p with
    | error e => exact .known _
    | ok base => exact alike_runs h (fun k hk => KeyRange.isBelow_of_contains hk) fun _ h => h
  | setArguments p args => exact alike_setArguments args fun _ h => h
  | arguments p => exact alike_arguments fun _ h => h

end AppRegistry
