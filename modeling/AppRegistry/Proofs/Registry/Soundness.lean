import AppRegistry.Proofs.Registry.Manifests
import AppRegistry.Proofs.Registry.Patches
import AppRegistry.Proofs.Registry.Typing

/-!
# The store stays well typed

Every operation is sound (`Operation.sound`): where it may go to the keys that it names itself, it
writes well-typed records as long as it finds such records. An operation that looks something up
refuses nothing.

**Theorem (`store_well_typed`).** Whatever operations on an empty store in memory lead to, if none
panicked, every record lies at a key of one of the six shapes and reads as the type of that
keyspace. No operation fails to read or to write the form of a record, and everything that can be
looked up is answered.
-/

namespace AppRegistry

open RegistryTransaction

variable {m m' : OrderedMap Key Json} {k : Key} {now : Instant}

/-! ## Kinds of operations -/

/-- Whether an error tells of a record that does not have its form or that has none. -/
def RegistryError.IsCodec : RegistryError → Prop
  | storage (.deserialization _) | storage (.serialization _ _) => True
  | _ => False

namespace Operation

/-- Whether an operation asks for something and changes nothing. -/
def IsQuestion : Operation → Prop
  | addApplication _ _ _ | removeApplication _ | removeApplications _ | removeAccount _
  | setInstances _ _ _ | startRun _ _ _ | stopRun _ _ _ _ | setArguments _ _ => False
  | _ => True

/-- Whether an operation takes a transaction at most and leaves the loader alone. -/
def IsQuery : Operation → Prop
  | addApplication _ _ _ | setInstances _ _ _ | loadProgram _ _ => False
  | _ => True

/-- Whether an operation looks something up that need not be there. -/
def IsLookup : Operation → Prop
  | instances _ _ | loadProgram _ _ => False
  | op => op.IsQuestion

/-- The errors that an operation may refuse with. A lookup refuses nothing, and no operation refuses
for the form of a record. -/
def Refuses (op : Operation) (e : RegistryError) : Prop := ¬ op.IsLookup ∧ ¬ e.IsCodec

/-- The keys that an operation names itself. All others it finds in scans. -/
def Addresses (k : Key) : Operation → Prop
  | addApplication id s _ => Layout.application id = .ok k ∨
    (∃ d ∈ s.streams.values, Layout.stream id.account d.name = .ok k) ∨
    ∃ d ∈ s.datasets.values, Layout.dataset id.account d.name = .ok k
  | specification id | location id | lastUpdated id | deletedPrograms id _
  | removeApplication id => Layout.application id = .ok k
  | stream a name => Layout.stream a name = .ok k
  | dataset a name => Layout.dataset a name = .ok k
  | setInstances p _ _ | instances p _ | loadProgram p _ => Layout.application p.application = .ok k
  | startRun p r _ | stopRun p r _ _ | run p r => Run.Owns p r k
  | setArguments p _ | arguments p => Layout.arguments p = .ok k
  | specifications _ | removeApplications _ | removeAccount _ | streams _ | datasets _
  | runHistory _ _ _ _ | activeRuns _ => False

end Operation

theorem Scalable.not_isCodec_of_count {s : Specification} {p : ProgramId} {x : Scalable}
    {e : RegistryError} (h : x.count s p = .error e) : ¬ e.IsCodec := by
  rw [count_eq] at h
  split at h
  · cases h
    exact not_false
  · cases h
    exact not_false
  · cases h

/-! ## What is written -/

section Writes
variable {P : Key → Prop}

theorem admissible_application {id : ApplicationId} (hP : P k) (hk : Layout.application id = .ok k)
    (r : ApplicationRecord) : Admissible P k (stored r) :=
  ⟨hP, ⟨.applications, id, r, hk, decode?_stored r⟩, storable_application r⟩

theorem admissible_stream {a : AccountId} {d : StreamDeclaration} (hP : P k)
    (hk : Layout.stream a d.name = .ok k) : Admissible P k (stored d) :=
  ⟨hP, ⟨.streams, a, d, hk, decode?_stored d⟩, storable_stored (tame_encode_stream d) (by decide)⟩

theorem admissible_dataset {a : AccountId} {d : DatasetDeclaration} (hP : P k)
    (hk : Layout.dataset a d.name = .ok k) : Admissible P k (stored d) :=
  ⟨hP, ⟨.datasets, a, d, hk, decode?_stored d⟩, storable_stored (tame_encode_dataset d) (by decide)⟩

theorem admissible_run {p : ProgramId} {x : RunRecord} (hP : P k)
    (hk : Layout.run p x.start x.run = .ok k) : Admissible P k (stored x) :=
  ⟨hP, ⟨.runs, p, x, hk, decode?_stored x⟩, storable_run x⟩

theorem admissible_runIndex {p : ProgramId} {r : RunId} (hP : P k)
    (hk : Layout.runIndex p r = .ok k) (time : Int64) : Admissible P k (stored time) :=
  ⟨hP, ⟨.runIndex, p, r, time, hk, decode?_stored time⟩, storable_int64 time⟩

theorem admissible_arguments {p : ProgramId} (hP : P k) (hk : Layout.arguments p = .ok k)
    (args : RunArguments) : Admissible P k (stored args) :=
  ⟨hP, ⟨.arguments, p, args, hk, decode?_stored args⟩,
    storable_stored (Json.tame_encode_map (Json.tame_string · 0) args) (by decide)⟩

end Writes

/-! ## Transactions -/

section Transactions
variable {P : Key → Prop} {E : RegistryError → Prop} {id : ApplicationId} {a : AccountId}
  {p : ProgramId} {r : RunId}

theorem sound_fetch_application (hP : P k) (hk : Layout.application id = .ok k) :
    Sound P E (fun _ => True) (fetch ApplicationRecord k) :=
  sound_fetch_of_holds hP (Layout.holds_application hk) fun _ ⟨_, r, _, hr⟩ => ⟨r, hr⟩

section Records
variable (hP : ∀ k, Layout.application id = .ok k → P k)
include hP

theorem sound_record? : Sound P E (fun _ => True) (Application.record? id) := by
  unfold Application.record?
  cases hk : Layout.application id with
  | error e => exact .pure trivial
  | ok k => exact sound_fetch_application (hP k hk) hk

theorem sound_required (hE : E (.applicationNotFound id)) :
    Sound P E (fun _ => ∃ k, Layout.application id = .ok k) (Application.required id) := by
  unfold Application.required Application.record?
  cases hk : Layout.application id with
  | error e => exact .reject hE
  | ok k =>
    refine (sound_fetch_application (hP k hk) hk).bind fun x _ => ?_
    cases x with
    | none => exact .reject hE
    | some r => exact .pure ⟨k, rfl⟩

theorem sound_removeOne : Sound P E (fun _ => True) (Application.removeOne id) := by
  unfold Application.removeOne
  cases hk : Layout.application id with
  | error e => exact .pure trivial
  | ok k =>
    obtain ⟨base, hbase⟩ := Layout.ofApplication_isOk hk .arguments
    refine (sound_deleteAt (hP k hk)).bind fun _ _ => ?_
    refine (sound_demandKey fun e he => ?_).bind fun l _ => ?_
    · cases hbase.symm.trans he
    · exact sound_deleteBelow.bind fun _ _ => .pure trivial

end Records

/-- The names in use are those of records, so their keys may be gone to. -/
theorem sound_namesUnder (s : Keyspace) (a : AccountId) :
    Sound P E (fun names : OrderedSet String => ∀ name ∈ names.members, ∀ k,
      Layout.ofApplication s (a.application name) = .ok k → P k)
      (Application.namesUnder (Layout.ofAccount s a)) := by
  unfold Application.namesUnder
  cases hbase : Layout.ofAccount s a with
  | error e => exact .pure nofun
  | ok base =>
    refine sound_scanOver.bind fun found hfound => .pure fun name hname k hk => ?_
    have hname : name ∈ found.filterMap fun e => nameBelow base e.1 :=
      (OrderedSet.mem_members_ofList _ name).mp hname
    obtain ⟨e, he, hbelow⟩ := List.mem_filterMap.mp hname
    -- A name is read off the key of a record, and the key made of it is that one again.
    have hkey : e.1 = k := by
      refine Key.ext ((nameBelow_eq_some_iff.mp hbelow).trans ?_)
      rw [(Layout.spells_ofAccount s a base).mp hbase, (Layout.spells_ofApplication s _ k).mp hk]
      rfl
    exact hkey ▸ (hfound e he).2.place

theorem sound_mergeCatalog {s : Specification}
    (hstreams : ∀ d ∈ s.streams.values, ∀ k, Layout.stream a d.name = .ok k → P k)
    (hdatasets : ∀ d ∈ s.datasets.values, ∀ k, Layout.dataset a d.name = .ok k → P k)
    (hE : ∀ e, E (.storage (.key e))) :
    Sound P E (fun _ => True) (Application.mergeCatalog a s) := by
  unfold Application.mergeCatalog
  refine (sound_forM fun d hd => ?_).bind fun _ _ => sound_forM fun d hd => ?_
  · exact (sound_demandKey fun e _ => hE e).bind fun k hk =>
      sound_put (admissible_stream (hstreams d hd k hk) hk)
  · exact (sound_demandKey fun e _ => hE e).bind fun k hk =>
      sound_put (admissible_dataset (hdatasets d hd k hk) hk)

/-! ### Runs -/

/-- The record of a run is found at its own key. -/
theorem sound_runRecord? (hP : ∀ k, Run.Owns p r k → P k) :
    Sound P E (fun found => ∀ k x, found = some (k, x) →
      P k ∧ ∃ p', Layout.run p' x.start x.run = .ok k) (Run.record? p r) := by
  unfold Run.record?
  cases hindex : Layout.runIndex p r with
  | error e => exact .pure nofun
  | ok index =>
    refine (sound_fetch_of_holds (hP index (.inl hindex)) (Layout.holds_runIndex hindex)
      fun _ ⟨_, _, time, _, htime⟩ => ⟨time, htime⟩).bind fun start _ => ?_
    cases start with
    | none => exact .pure nofun
    | some start =>
      refine (sound_demandKey fun e he => ?_).bind fun k hk => ?_
      · obtain ⟨l, hl⟩ := Layout.run_isOk hindex start
        cases hl.symm.trans he
      · have hPk : P k := hP k (.inr ⟨start, hk⟩)
        refine (sound_fetch (Q := fun x => ∃ p', Layout.run p' x.start x.run = .ok k) hPk
          fun v hv => ?_).bind fun found hfound => .pure ?_
        · obtain ⟨p', x, hk', hx⟩ := hv.typed (Layout.holds_run hk)
          exact ⟨x, hx, p', hk'⟩
        · intro l x hx
          obtain ⟨x', rfl, hsame⟩ := Option.map_eq_some_iff.mp hx
          cases hsame
          exact ⟨hPk, hfound x rfl⟩

theorem sound_start {time : Int64} (hP : ∀ k, Run.Owns p r k → P k)
    (hE : ∀ e, ¬ e.IsCodec → E e) : Sound P E (fun _ => True) (do
      let index ← demandKey (Layout.runIndex p r)
      match ← demand (Transaction.readAt index) with
      | some _ => .reject (.invalidRunState p r .alreadyStarted)
      | none =>
        put (← demandKey (Layout.run p time r)) (RunRecord.started r time)
        put index time) := by
  refine (sound_demandKey fun e _ => hE _ nofun).bind fun index hindex => ?_
  refine (sound_readAt (hP index (.inl hindex))).bind fun found _ => ?_
  cases found with
  | some _ => exact .reject (hE _ nofun)
  | none =>
    refine (sound_demandKey fun e _ => hE _ nofun).bind fun k hk => ?_
    have hrecord : Admissible P k (stored (RunRecord.started r time)) :=
      admissible_run (hP k (.inr ⟨time, hk⟩)) hk
    exact (sound_put hrecord).bind fun _ _ =>
      sound_put (admissible_runIndex (hP index (.inl hindex)) hindex time)

theorem sound_stop {time : Int64} {status : String} (hP : ∀ k, Run.Owns p r k → P k)
    (hE : ∀ e, ¬ e.IsCodec → E e) : Sound P E (fun _ => True) (do
      match ← Run.record? p r with
      | none => .reject (.invalidRunState p r .notRunning)
      | some (k, record) =>
        if record.isRunning then put k (record.stopped time status)
        else .reject (.invalidRunState p r .alreadyStopped)) := by
  refine (sound_runRecord? hP).bind fun found hfound => ?_
  cases found with
  | none => exact .reject (hE _ nofun)
  | some e =>
    obtain ⟨k, record⟩ := e
    obtain ⟨hk, p', hrun⟩ := hfound k record rfl
    simp only
    split
    · -- A run that has stopped keeps its start time, so its record stays at its key.
      have hrecord : Admissible P k (stored (record.stopped time status)) := admissible_run hk hrun
      exact sound_put hrecord
    · exact .reject (hE _ nofun)

/-- A scan of the runs of a program finds records of runs. -/
theorem sound_runs {base : Key} {range : KeyRange} (hbase : Layout.ofProgram .runs p = .ok base)
    (hrange : ∀ k, range.contains k = true → k.isBelow base = true) :
    Sound P E (fun _ => True) (fetchRange RunRecord range) := by
  refine sound_fetchRange fun k v hk hv => ?_
  obtain ⟨_, x, -, hx⟩ := hv.typed
    ((Layout.spells_ofProgram .runs p).holds hbase (Key.isBelow_iff.mp (hrange k hk)))
  exact ⟨x, hx⟩

end Transactions

/-! ## Requests -/

/-- Requests that come down to sound transactions. -/
inductive Request.Sound (P : Key → Prop) (E : RegistryError → Prop) : Request → Prop
  | known {a} (ha : a ≠ .panicked) (hE : ∀ e, a = .error e → E e) : Request.Sound P E (.known a)
  | ask {α : Type} {f : α → Reply} {t} (h : AppRegistry.Sound P E (fun _ => True) t) :
      Request.Sound P E (.ask f t)
  | publish {target t} (h : AppRegistry.Sound P E (fun x => Admissible P x.1 (stored x.2)) t) :
      Request.Sound P E (.publish target t)
  | load {p kind} (h : AppRegistry.Sound P E (fun _ => True) (Application.required p.application)) :
      Request.Sound P E (.load p kind)

theorem Request.Sound.reply {P : Key → Prop} {E : RegistryError → Prop} (r : Reply) :
    Request.Sound P E (.known (.reply r)) := .known nofun nofun

theorem Request.Sound.error {P : Key → Prop} {E : RegistryError → Prop} {e : RegistryError}
    (he : E e) : Request.Sound P E (.known (.error e)) :=
  .known nofun fun _ hsame => Answer.error.inj hsame ▸ he

/-- **Every operation is sound** where it may go to the keys that it names. -/
theorem Operation.sound {P : Key → Prop} (op : Operation) (now : Instant)
    (hP : ∀ k, op.Addresses k → P k) : (op.request now).Sound P op.Refuses := by
  have hE : ¬ op.IsLookup → ∀ e : RegistryError, ¬ e.IsCodec → op.Refuses e := fun h _ he => ⟨h, he⟩
  -- Each operation follows its own text: what it fetches is typed by the key, and what it puts is
  -- the record that belongs there.
  cases op with
  | addApplication id s archive =>
    simp only [Operation.request]
    cases s.instanceCounts.find? (· < 1) with
    | some n => exact .error (hE not_false _ not_false)
    | none =>
      cases hk : Layout.application id with
      | error e' => exact .error (hE not_false _ not_false)
      | ok k =>
        have hPk : P k := hP k (.inl hk)
        refine .publish ?_
        refine (sound_fetch_application hPk hk).bind fun _ _ => ?_
        refine (sound_mergeCatalog (fun d hd k hk => hP k (.inr (.inl ⟨d, hd, hk⟩)))
          (fun d hd k hk => hP k (.inr (.inr ⟨d, hd, hk⟩))) fun e => hE not_false _ not_false).bind ?_
        exact fun _ _ => .pure (admissible_application hPk hk _)
  | specification id | location id | lastUpdated id =>
    exact .ask ((sound_record? hP).bind fun _ _ => .pure trivial)
  | specifications a =>
    simp only [Operation.request, Application.specifications]
    cases hbase : Layout.ofAccount .applications a with
    | error e => exact .reply _
    | ok base =>
      refine .ask ((sound_fetchRange fun k v hk hv => ?_).bind fun _ _ => .pure trivial)
      rw [Transaction.contains_all] at hk
      obtain ⟨_, r, -, hr⟩ := hv.typed (Layout.holds_of_isBelow hbase hk)
      exact ⟨r, hr⟩
  | deletedPrograms id candidate =>
    refine .ask ((sound_record? hP).bind fun found _ => ?_)
    cases found with
    | none => exact .pure trivial
    | some r => exact .pure trivial
  | removeApplication id => exact .ask (sound_removeOne hP)
  | removeApplications a =>
    refine .ask ((sound_namesUnder .applications a).bind fun names hnames => ?_)
    exact sound_forM fun name hname => sound_removeOne (hnames name hname)
  | removeAccount a =>
    simp only [Operation.request, Account.remove]
    cases Layout.account a with
    | error e => exact .reply _
    | ok keys => exact .ask (sound_forM fun k _ => sound_deleteBelow.bind fun _ _ => .pure trivial)
  | streams a => exact .ask ((sound_namesUnder .streams a).mono fun _ _ => trivial)
  | datasets a => exact .ask ((sound_namesUnder .datasets a).mono fun _ _ => trivial)
  | stream a name =>
    simp only [Operation.request, Account.stream]
    cases hk : Layout.stream a name with
    | error e => exact .reply _
    | ok k =>
      have hholds : Keyspace.streams.Holds a k :=
        (Layout.spells_stream a name).holds hk List.prefix_rfl
      refine .ask (sound_fetch_of_holds (hP k hk) hholds ?_)
      rintro v ⟨_, d, -, hd⟩
      exact ⟨d, hd⟩
  | dataset a name =>
    simp only [Operation.request, Account.dataset]
    cases hk : Layout.dataset a name with
    | error e => exact .reply _
    | ok k =>
      have hholds : Keyspace.datasets.Holds a k :=
        (Layout.spells_dataset a name).holds hk List.prefix_rfl
      refine .ask (sound_fetch_of_holds (hP k hk) hholds ?_)
      rintro v ⟨_, d, -, hd⟩
      exact ⟨d, hd⟩
  | setInstances p x n =>
    simp only [Operation.request]
    split
    · exact .error (hE not_false _ not_false)
    · refine .publish ((sound_required hP (hE not_false _ not_false)).bind fun r _ => ?_)
      cases hc : x.count r.specification p with
      | error e => exact .reject (hE not_false _ (Scalable.not_isCodec_of_count hc))
      | ok c =>
        refine (sound_demandKey fun e _ => hE not_false _ not_false).bind fun k hk => ?_
        exact .pure (admissible_application (hP k hk) hk _)
  | instances p x =>
    refine .ask ((sound_required hP (hE not_false _ not_false)).bind fun r _ => ?_)
    cases hc : x.count r.specification p with
    | error e => exact .reject (hE not_false _ (Scalable.not_isCodec_of_count hc))
    | ok c => exact .pure trivial
  | loadProgram p kind =>
    exact .load ((sound_required hP (hE not_false _ not_false)).mono fun _ _ => trivial)
  | startRun p r time => exact .ask (sound_start hP (hE not_false))
  | stopRun p r time status => exact .ask (sound_stop hP (hE not_false))
  | run p r => exact .ask ((sound_runRecord? hP).bind fun _ _ => .pure trivial)
  | runHistory p low high limit =>
    simp only [Operation.request, Run.history]
    split
    · exact .reply _
    · cases hbase : Layout.ofProgram .runs p with
      | error e => exact .reply _
      | ok base =>
        refine .ask ((sound_runs hbase fun k hk => ?_).bind fun _ _ => .pure trivial)
        exact KeyRange.isBelow_of_contains hk
  | activeRuns p =>
    simp only [Operation.request, Run.active]
    cases hbase : Layout.ofProgram .runs p with
    | error e => exact .reply _
    | ok base =>
      refine .ask ((sound_runs hbase fun k hk => ?_).bind fun _ _ => .pure trivial)
      exact KeyRange.isBelow_of_contains hk
  | setArguments p args =>
    refine .ask ((sound_demandKey fun e _ => hE not_false _ not_false).bind fun k hk => ?_)
    exact sound_put (admissible_arguments (hP k hk) hk args)
  | arguments p =>
    simp only [Operation.request, Run.arguments]
    cases hk : Layout.arguments p with
    | error e => exact .reply _
    | ok k =>
      have hholds : Keyspace.arguments.Holds p.account k :=
        (Layout.spells_ofProgram .arguments p).holds hk List.prefix_rfl
      refine .ask ((sound_fetch_of_holds (hP k hk) hholds ?_).bind fun _ _ => .pure trivial)
      rintro v ⟨_, args, -, hargs⟩
      exact ⟨args, hargs⟩

/-! ## What sound requests leave and answer -/

section Answers
variable {P : Key → Prop} {E : RegistryError → Prop} {rq : Request} {a : Answer}

/-- **A sound request keeps all records admissible**, whatever it answers. -/
theorem Request.Sound.gives (h : rq.Sound P E) (hm : AllAdmissible P m) (hg : rq.Gives m a m') :
    AllAdmissible P m' := by
  cases hg with
  | known | rejected | unpublished | loaded => exact hm
  | replied hrun =>
    cases h with
    | ask htx =>
      have hafter := (htx.runOn hm).2
      rwa [hrun] at hafter
  | published hrun hanswer =>
    cases h with
    | publish htx =>
      obtain ⟨hend, hafter⟩ := htx.runOn hm
      rw [hrun] at hend hafter
      exact hafter.insert hend

variable {σ : Type} {L : Loader σ} {y : σ} {t : FileTree}

/-- In memory the error of a sound request is one that its transaction may end with, or it comes
from the loading of a program. -/
theorem Request.Sound.not_isCodec (h : rq.Sound P E) (hm : AllAdmissible P m)
    (hE : ∀ e, E e → ¬ e.IsCodec) {e : RegistryError}
    (he : ((Registry.serve L ⟨.ofMap m, false, y⟩ rq).run t).1.1 = .error e) : ¬ e.IsCodec := by
  -- The transaction ends with what it may end with; whatever a loader answers is not an error of a
  -- codec.
  cases h with
  | known ha hknown => exact hE e (hknown e he)
  | @ask _ f tx htx =>
    have hend := (htx.runOn hm).1
    rw [Registry.ask_inMemory] at he
    generalize tx.runOn m = ran at hend he
    obtain ⟨_ | e' | _, copy⟩ := ran
    · cases he
    · cases he
      exact hE e hend
    · cases he
  | @publish target tx htx =>
    have hend := (htx.runOn hm).1
    rw [Registry.publish_inMemory] at he
    generalize tx.runOn m = ran at hend he
    obtain ⟨⟨k, r⟩ | e' | _, copy⟩ := ran
    · simp only at he
      generalize ((L.stage r.location r.specification).run y).run t = staging at he
      obtain ⟨⟨u | _ | _, y₁⟩, t₁⟩ := staging
      · simp only [Registry.applyCommitted_run] at he
        generalize ((L.apply u).run y₁).run t₁ = applied at he
        obtain ⟨⟨_ | _ | _, _⟩, _⟩ := applied
        · cases he
        · cases he
          exact not_false
        · cases he
      · cases he
        exact not_false
      · cases he
    · cases he
      exact hE e hend
    · cases he
  | @load p kind htx =>
    have hend := (htx.runOn hm).1
    rw [Registry.load_inMemory] at he
    generalize ((Application.required p.application).runOn m).1 = out at hend he
    obtain r | e' | _ := out
    · simp only at he
      split at he
      · cases he
        exact not_false
      · generalize ((L.load r.location p kind r.specification).run y).run t = loaded at he
        obtain ⟨⟨_ | _ | _, _⟩, _⟩ := loaded
        · cases he
        · cases he
          exact not_false
        · cases he
    · cases he
      exact hE e hend
    · cases he

theorem Operation.IsQuery.exists_query {op : Operation} (h : op.IsQuery) (now : Instant) :
    ∃ (β : Type) (f : β → Reply) (q : Query β), op.request now = q.request f := by
  cases op with
  | addApplication | setInstances | loadProgram => exact h.elim
  | _ =>
    simp only [request]
    exact ⟨_, _, _, rfl⟩

theorem Operation.IsLookup.isQuery {op : Operation} (h : op.IsLookup) : op.IsQuery := by
  cases op with
  | addApplication | setInstances | loadProgram => exact h.elim
  | _ => exact trivial

/-- **In memory a lookup is answered.** -/
theorem Operation.IsLookup.answered {op : Operation} (h : op.IsLookup) (now : Instant)
    (hm : AllAdmissible (fun _ => True) m) :
    ∃ r, ((Registry.serve L ⟨.ofMap m, false, y⟩ (op.request now)).run t).1.1 = .reply r := by
  have hsound := op.sound (P := fun _ => True) now fun _ _ => trivial
  obtain ⟨β, f, q, hq⟩ := h.isQuery.exists_query now
  rw [hq] at hsound ⊢
  obtain (e | b) | tx := q
  · cases hsound with
    | known ha hE => exact absurd h (hE e rfl).1
  · exact ⟨f b, rfl⟩
  · cases hsound with
    | ask htx =>
      have hend := (htx.runOn hm).1
      rw [Query.request, Registry.ask_inMemory]
      generalize tx.runOn m = ran at hend
      obtain ⟨b | e | _, copy⟩ := ran
      · exact ⟨f b, rfl⟩
      · exact absurd h hend.1
      · exact hend.elim

end Answers

/-! ## Reachable states -/

namespace Registry

variable {σ : Type} {L : Loader σ} {g : Registry σ} {t : FileTree}
  {past : List (Operation × Answer)}

/-- In every reachable state all records are well typed. -/
theorem Reached.exists_wellTyped (h : Reached L past g t) :
    ∃ m, g.Holds m t ∧ AllAdmissible (fun _ => True) m :=
  h.exists_holds (P := fun _ m => AllAdmissible (fun _ => True) m) allAdmissible_empty
    (fun _ now op _ _ _ _ hm hg _ => (op.sound now fun _ _ => trivial).gives hm hg)
    fun _ _ _ _ hm => hm

/-- **The store stays well typed.** In every reachable state each record lies at a key of one of the
six shapes of the layout and reads as the type of its keyspace; streams and datasets have the name
in their key. In memory no operation then fails to read or to write the form of a record, and every
lookup is answered. -/
theorem store_well_typed (h : Reached L past g t) :
    (∀ k v, (g.store.snapshot t).get k = .ok (some v) → WellTyped k v) ∧
    (g.store.root? = none →
      (∀ now op e, ((perform L g now op).run t).1.1 = .error e → ¬ e.IsCodec) ∧
      ∀ now op, op.IsLookup → ∃ r, ((perform L g now op).run t).1.1 = .reply r) := by
  obtain ⟨m, hholds, hm⟩ := h.exists_wellTyped
  refine ⟨fun k v hv => ?_, fun hroot => ⟨fun now op e he => ?_, fun now op hop => ?_⟩⟩
  · have hget := (holds_iff.mp hholds).1.store.sees.base.get k ⟨_, hv⟩
    rw [hv] at hget
    exact (hm k v (Except.ok.inj hget).symm).typed
  · rw [perform_eq_serve, hholds.eq_ofMap hroot] at he
    exact (op.sound now fun _ _ => trivial).not_isCodec hm (fun _ he => he.2) he
  · rw [perform_eq_serve, hholds.eq_ofMap hroot]
    exact hop.answered now hm

/-! ### A procedure that runs -/

/-- The procedure is deployed, gets arguments and is started. -/
def running : List TimedOperation :=
  [(noon, .addApplication shop (pricing 2) ⟨"shop.jar"⟩),
    (noon, .setArguments (shop.program "price") (.ofList [("currency", "EUR")])),
    (noon, .startRun (shop.program "price") ⟨"r1"⟩ 10)]

theorem store_well_typed_running : ∃ g t,
    Reached (.ofSpecification Unit) (history running [.reply .done, .reply .done, .reply .done]) g t ∧
    g.store.root? = none ∧
    (∀ k v, (g.store.snapshot t).get k = .ok (some v) → WellTyped k v) ∧
    ∃ r, ((perform (.ofSpecification Unit) g noon (.activeRuns (shop.program "price"))).run t).1.1 =
      .reply r := by
  obtain ⟨g, t, hreached, hroot⟩ := reached_inMemory (.ofSpecification Unit) () .empty running
    [.reply .done, .reply .done, .reply .done] (by decide +kernel) (by decide)
  obtain ⟨htyped, hanswers⟩ := store_well_typed hreached
  exact ⟨g, t, hreached, hroot, htyped, (hanswers hroot).2 noon _ trivial⟩

end Registry

end AppRegistry
