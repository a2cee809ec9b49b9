import AppRegistry.Proofs.Registry.Deployments
import AppRegistry.Proofs.Registry.Removals
import AppRegistry.Proofs.Registry.Sequences

/-!
# The table of applications

An account has at most one application of a name. `Application.since` follows one application
through all that was asked and answered: a deployment replaces what was deployed, a change of an
instance count patches its specification, and three kinds of removal end it. Nothing else makes a
difference to it (`Application.since_eq_some_iff`).

Main result: `Registry.application_table`. In every reachable state of a registry whose loader has
applied all that was committed, `Application.since` is what the registry answers for the
application, and the list of an account is made of these answers in the order of the names.

The invariant is `Application.Tracks`: the record at the key of an application is that of what
`Application.since` gives, whenever it was last updated.
-/

namespace AppRegistry

open RegistryTransaction

/-! ## Following an application -/

/-- An application has a key of its own. -/
theorem Layout.application_inj {id id' : ApplicationId} {k : Key}
    (h : Layout.application id = .ok k) (h' : Layout.application id' = .ok k) : id = id' :=
  Layout.ofApplication_inj h h'

namespace Application

variable {m m' : OrderedMap Key Json} {past : List (Operation × Answer)} {id : ApplicationId}
  {k : Key} {e : Operation × Answer} {now : Instant} {reply : Reply}

/-- What is deployed as an application. -/
@[ext]
structure Deployed where
  specification : Specification
  location : ArchiveLocation
deriving DecidableEq

namespace Deployed

/-- The record of what is deployed. -/
def record (d : Deployed) (time : Instant) : ApplicationRecord :=
  ⟨d.specification, d.location, time⟩

/-- What is deployed after an operation that may set one of its instance counts. -/
def patchedBy (id : ApplicationId) (d : Deployed) : Operation × Answer → Deployed
  | (.setInstances p x n, .reply _) =>
    if p.application = id then { d with specification := x.setCount d.specification p n } else d
  | _ => d

end Deployed

/-- What becomes of an application with one operation and its answer. -/
def follow (id : ApplicationId) (d : Option Deployed) (e : Operation × Answer) : Option Deployed :=
  match e with
  | (.addApplication id' s l, .reply _) => if id' = id then some ⟨s, l⟩ else d
  | (.removeApplication id', .reply _) => if id' = id then none else d
  | (.removeApplications a, .reply _) => if a = id.account then none else d
  | (.removeAccount a, .reply _) => if a = id.account then none else d
  | e => d.map (·.patchedBy id e)

/-- What is deployed as an application after all that was asked and answered. -/
def since (id : ApplicationId) (past : List (Operation × Answer)) : Option Deployed :=
  past.foldl (follow id) none

theorem since_concat (e : Operation × Answer) :
    since id (past ++ [e]) = follow id (since id past) e := by
  rw [since, List.foldl_append]
  rfl

/-- Whether an operation with its answer deploys or removes an application. -/
def Replaces (id : ApplicationId) : Operation × Answer → Prop
  | (.addApplication id' _ _, .reply _) => id' = id
  | (.removeApplication id', .reply _) => id' = id
  | (.removeApplications a, .reply _) => a = id.account
  | (.removeAccount a, .reply _) => a = id.account
  | _ => False

theorem follow_eq_some_iff {x : Option Deployed} {d : Deployed} : follow id x e = some d ↔
    (∃ reply, e = (.addApplication id d.specification d.location, .reply reply)) ∨
      ∃ d₀, x = some d₀ ∧ ¬ Replaces id e ∧ d = d₀.patchedBy id e := by
  obtain ⟨op, a⟩ := e
  cases a with
  | reply r =>
    cases op with
    | addApplication id' s l =>
      simp only [follow, Replaces]
      split
      · next h => simp [h, Deployed.ext_iff, eq_comm]
      · next h => simp [h, Deployed.patchedBy, eq_comm (a := d)]
    | removeApplication | removeApplications | removeAccount =>
      simp only [follow, Replaces]
      split
      · next h => simp [h]
      · next h => simp [h, Deployed.patchedBy, eq_comm]
    | _ => simp [follow, Replaces, eq_comm]
  | _ => simp [follow, Replaces, eq_comm]

/-- **What is deployed is what the latest deployment gave, patched in order since.** -/
theorem since_eq_some_iff {d : Deployed} : since id past = some d ↔
    ∃ before after s l reply, past = before ++ (.addApplication id s l, .reply reply) :: after ∧
      (∀ e ∈ after, ¬ Replaces id e) ∧ d = after.foldl (·.patchedBy id ·) ⟨s, l⟩ := by
  -- The last entry decides: it deploys the application, or it patches what the entries before it
  -- have left.
  induction past using List.reverseRecOn generalizing d with
  | nil => simp [since]
  | append_singleton past e ih =>
    rw [since_concat, follow_eq_some_iff]
    constructor
    · rintro (⟨reply, rfl⟩ | ⟨d₀, hx, he, rfl⟩)
      · exact ⟨past, [], _, _, reply, rfl, fun _ he => absurd he List.not_mem_nil, rfl⟩
      · obtain ⟨before, after, s, l, reply, rfl, hkept, rfl⟩ := ih.mp hx
        refine ⟨before, after ++ [e], s, l, reply, List.append_assoc _ _ _, fun e' he' => ?_, ?_⟩
        · rcases List.mem_append.mp he' with hmem | hmem
          · exact hkept e' hmem
          · exact List.mem_singleton.mp hmem ▸ he
        · rw [List.foldl_append]
          rfl
    · rintro ⟨before, after, s, l, reply, heq, hkept, rfl⟩
      rcases List.eq_nil_or_concat after with rfl | ⟨after, e', rfl⟩
      · exact .inl ⟨reply, List.singleton_inj.mp (List.append_inj' heq rfl).2⟩
      · rw [List.concat_eq_append, ← List.cons_append, ← List.append_assoc] at heq
        obtain ⟨rfl, he⟩ := List.append_inj' heq rfl
        obtain rfl := List.singleton_inj.mp he
        rw [List.concat_eq_append] at hkept ⊢
        refine .inr ⟨_, ih.mpr ⟨before, after, s, l, reply, rfl, fun e' he' => ?_, rfl⟩, ?_, ?_⟩
        · exact hkept e' (List.mem_append_left _ he')
        · exact hkept e (by simp)
        · rw [List.foldl_append]
          rfl

/-! ## The store in step -/

/-- The store is in step with what was asked and answered. -/
structure Tracks (past : List (Operation × Answer)) (m : OrderedMap Key Json) : Prop where
  record : ∀ id k, Layout.application id = .ok k →
    Option.Rel (fun d v => ∃ time, v = stored (Deployed.record d time)) (since id past) (m.get? k)
  only : ∀ a k, Keyspace.applications.Holds a k → (m.get? k).isSome →
    ∃ id, Layout.application id = .ok k
  storable : ∀ id d, since id past = some d → ∃ k, Layout.application id = .ok k

theorem tracks_nil : Tracks [] ∅ where
  record id k _ := .none
  only a k _ hk := by simp at hk
  storable id d hd := by simp [since] at hd

theorem Tracks.record_of_since (h : Tracks past m) {d : Deployed} (hd : since id past = some d)
    (hk : Layout.application id = .ok k) : ∃ time, m.get? k = some (stored (d.record time)) := by
  have hrecord := h.record id k hk
  rw [hd] at hrecord
  generalize m.get? k = v at hrecord
  cases hrecord with
  | some hv => exact hv.imp fun _ => congrArg some

theorem Tracks.since_of_record (h : Tracks past m) (hk : Layout.application id = .ok k) {v : Json}
    (hv : m.get? k = some v) :
    ∃ d time, since id past = some d ∧ v = stored (Deployed.record d time) := by
  have hrecord := h.record id k hk
  rw [hv] at hrecord
  generalize since id past = x at hrecord
  cases hrecord with
  | @some d _ hd => exact ⟨d, hd.choose, rfl, hd.choose_spec⟩

/-- A step that leaves some applications as they were and ends the others. -/
theorem Tracks.removed (h : Tracks past m) (gone : ApplicationId → Prop)
    (hgone : ∀ id, gone id → follow id (since id past) e = none)
    (hkept : ∀ id, ¬ gone id → follow id (since id past) e = since id past)
    (hnone : ∀ id k, gone id → Layout.application id = .ok k → m'.get? k = none)
    (hget : ∀ id k, ¬ gone id → Layout.application id = .ok k → m'.get? k = m.get? k)
    (honly : ∀ a k, Keyspace.applications.Holds a k → (m'.get? k).isSome → (m.get? k).isSome) :
    Tracks (past ++ [e]) m' := by
  constructor
  · intro id k hk
    rw [since_concat]
    by_cases hid : gone id
    · rw [hgone id hid, hnone id k hid hk]
      exact .none
    · rw [hkept id hid, hget id k hid hk]
      exact h.record id k hk
  · exact fun a k hk hsome => h.only a k hk (honly a k hk hsome)
  · intro id d hd
    rw [since_concat] at hd
    by_cases hid : gone id
    · cases (hgone id hid).symm.trans hd
    · exact h.storable id d (hkept id hid ▸ hd)

/-- A step that leaves every application as it was. -/
theorem Tracks.unchanged (h : Tracks past m) (hfollow : ∀ id x, follow id x e = x)
    (hget : ∀ a k, Keyspace.applications.Holds a k → m'.get? k = m.get? k) :
    Tracks (past ++ [e]) m' :=
  h.removed (fun _ => False) (fun _ => False.elim) (fun id _ => hfollow id _)
    (fun _ _ => False.elim) (fun _ k _ hk => hget _ k (Layout.holds_application hk))
    fun a k hk hsome => hget a k hk ▸ hsome

/-- A step that replaces what is deployed as one application. -/
theorem Tracks.deployed (h : Tracks past m) {d : Deployed} (time : Instant)
    (hk : Layout.application id = .ok k)
    (hfollow : ∀ id', follow id' (since id' past) e = if id = id' then some d else since id' past)
    (hget : ∀ a l, Keyspace.applications.Holds a l →
      m'.get? l = if k = l then some (stored (d.record time)) else m.get? l) :
    Tracks (past ++ [e]) m' := by
  constructor
  · intro id' l hl
    rw [since_concat, hfollow, hget id'.account l (Layout.holds_application hl)]
    -- Keys of applications tell the applications apart, so one record is replaced and no other.
    by_cases hid : id = id'
    · subst hid
      obtain rfl : k = l := Except.ok.inj (hk.symm.trans hl)
      rw [if_pos rfl, if_pos rfl]
      exact .some ⟨time, rfl⟩
    · have hkl : k ≠ l := by
        rintro rfl
        exact hid (Layout.application_inj hk hl)
      rw [if_neg hid, if_neg hkl]
      exact h.record id' l hl
  · intro a l hl hsome
    rw [hget a l hl] at hsome
    split at hsome
    · next hkl => exact ⟨id, hkl ▸ hk⟩
    · exact h.only a l hl hsome
  · intro id' d' hd'
    rw [since_concat, hfollow] at hd'
    split at hd'
    · next hid => exact ⟨k, hid ▸ hk⟩
    · exact h.storable id' d' hd'

/-- A step that leaves no application of one account, and every other as it was. -/
theorem Tracks.emptied (h : Tracks past m) (b : AccountId)
    (hgone : ∀ id x, b = id.account → follow id x e = none)
    (hkept : ∀ id x, b ≠ id.account → follow id x e = x)
    (hnone : ∀ k, Keyspace.applications.Holds b k →
      (m.get? k = none ∨ ∃ name, Layout.application ⟨b, name⟩ = .ok k) → m'.get? k = none)
    (hother : ∀ a k, b ≠ a → Keyspace.applications.Holds a k → m'.get? k = m.get? k) :
    Tracks (past ++ [e]) m' := by
  refine h.removed (b = ·.account) (fun id hid => hgone id _ hid) (fun id hid => hkept id _ hid)
    ?_ ?_ ?_
  · rintro ⟨a, name⟩ k rfl hk
    exact hnone k (Layout.holds_application hk) (.inr ⟨name, hk⟩)
  · exact fun id k hid hk => hother id.account k hid (Layout.holds_application hk)
  · intro a k hk hsome
    by_cases hb : b = a
    · subst hb
      refine Option.isSome_iff_ne_none.mpr fun hget => ?_
      simp [hnone k hk (.inl hget)] at hsome
    · exact hother a k hb hk ▸ hsome

/-- **Every operation that gets through keeps the store in step.** -/
theorem Tracks.gives (h : Tracks past m) (hm : AllStorable m) {op : Operation}
    (hg : (op.request now).Gives m (.reply reply) m') :
    Tracks (past ++ [(op, .reply reply)]) m' := by
  have hkept : ∀ k, ¬ op.Writes k → m'.get? k = m.get? k := fun k hk =>
    hg.get?_eq (op.alike now now) hm hk
  cases op with
  | addApplication id s l =>
    obtain ⟨k, catalog, hk, hmerge, rfl⟩ := gives_addApplication hg
    refine h.deployed (d := ⟨s, l⟩) now hk (fun _ => rfl) fun a l' hl' => ?_
    rw [OrderedMap.get?_insert, get?_mergeCatalog hm hmerge hl']
    rfl
  | setInstances p x n =>
    obtain ⟨k, v, r, c, hk, hv, hr, -, rfl⟩ := gives_setInstances hg
    obtain ⟨d, time, hd, rfl⟩ := h.since_of_record hk hv
    obtain rfl : d.record time = r := Option.some.inj ((decode?_stored _).symm.trans hr)
    -- A change of a count is a deployment of the patched specification.
    refine h.deployed (d := { d with specification := x.setCount d.specification p n })
      now hk (fun id' => ?_) fun a l' hl' => OrderedMap.get?_insert _ _ _ _
    simp only [follow, Deployed.patchedBy]
    split
    · next hid => rw [← hid, hd, Option.map_some]
    · rw [Option.map_id']
  | removeApplication id =>
    obtain ⟨-, hremoved⟩ := gives_removeApplication hg
    have hnone : ∀ k, Layout.application id = .ok k → m'.get? k = none := fun k hk =>
      (hremoved _ k (Layout.holds_application hk)).1 hk
    refine h.removed (· = id) (fun id' hid => if_pos hid.symm) (fun id' hid => if_neg (Ne.symm hid))
      ?_ ?_ ?_
    · rintro id' k rfl hk
      exact hnone k hk
    · exact fun id' k hid hk => (hremoved _ k (Layout.holds_application hk)).2 fun hk' =>
        hid (Layout.application_inj hk hk')
    · intro a k hk hsome
      by_cases hid : Layout.application id = .ok k
      · simp [hnone k hid] at hsome
      · exact (hremoved a k hk).2 hid ▸ hsome
  | removeApplications b =>
    refine h.emptied b (fun id _ hid => if_pos hid) (fun id _ hid => if_neg hid)
      (fun k hk => ((gives_removeApplications hg).2 k hk).1) fun a k hb hk => hkept k fun hw => ?_
    exact hw.elim (fun hw => hb (hw.unique hk).2) fun hw => hw.not_application (by decide) a hk
  | removeAccount b =>
    refine h.emptied b (fun id _ hid => if_pos hid) (fun id _ hid => if_neg hid)
      (fun k hk _ => (gives_removeAccount hg).2 k ⟨_, hk⟩) fun a k hb hk => hkept k fun hw => ?_
    exact hb (AccountId.Owns.unique hw ⟨_, hk⟩)
  | startRun p r time | stopRun p r time status =>
    exact h.unchanged (fun _ _ => by simp [follow, Deployed.patchedBy]) fun a k hk =>
      hkept k fun hw => Run.Owns.not_application hw a hk
  | setArguments p args =>
    exact h.unchanged (fun _ _ => by simp [follow, Deployed.patchedBy]) fun a k hk =>
      hkept k fun hw => Keyspace.Holds.not_application hw (by decide) a hk
  | _ =>
    exact h.unchanged (fun _ _ => by simp [follow, Deployed.patchedBy]) fun a k hk =>
      hkept k fun hw => hw

theorem follow_of_not_reply {a : Answer} (ha : ∀ r, a ≠ .reply r) (op : Operation)
    (x : Option Deployed) : follow id x (op, a) = x := by
  cases a with
  | reply r => exact absurd rfl (ha r)
  | _ => simp [follow, Deployed.patchedBy]

/-- An operation keeps the store in step, unless the loader could not apply its change. -/
theorem Tracks.serves {σ : Type} {L : Loader σ} {g g' : Registry σ} {t' : FileTree}
    {F : Footprint} {op : Operation} {a : Answer} (h : Tracks past m) (hm : AllStorable m)
    (hserves : Registry.Serves L g m F (op.request now) a g' t')
    (happlied : ∀ target, ¬ L.Unapplied target a) :
    ∃ m', g'.Holds m' t' ∧ g'.store.root? = g.store.root? ∧ Tracks (past ++ [(op, a)]) m' := by
  obtain ⟨m', hholds, hroot, hchanged, hends⟩ := hserves
  refine ⟨m', hholds, hroot, ?_⟩
  -- An answer that is no reply leaves the map, for the loader has not failed to apply anything.
  by_cases hgot : ∃ r, a = .reply r
  · obtain ⟨r, rfl⟩ := hgot
    rcases hends with hgives | ⟨-, ⟨e, he⟩, -⟩
    · exact h.gives hm hgives
    · cases he
  · obtain rfl : m' = m := by
      rcases hchanged with h | h | ⟨target, h⟩
      · exact h
      · exact absurd h hgot
      · exact absurd h (happlied target)
    exact h.unchanged (fun _ => follow_of_not_reply (fun r hr => hgot ⟨r, hr⟩) op) fun _ _ _ => rfl

/-! ## Questions -/

section Questions
variable {σ : Type} {L : Loader σ} {g : Registry σ} {t : FileTree}

/-- The record of an application is that of what is deployed. -/
theorem Tracks.runOn_record? (h : Tracks past m) (id : ApplicationId) :
    ∃ x : Option ApplicationRecord, (record? id).runOn m = (.done x, m) ∧
      Option.Rel (fun d r => ∃ time, r = Deployed.record d time) (since id past) x := by
  unfold record?
  cases hk : Layout.application id with
  | error e =>
    have hnone : since id past = none := Option.eq_none_iff_forall_ne_some.mpr fun d hd => by
      obtain ⟨k, hk'⟩ := h.storable id d hd
      cases hk.symm.trans hk'
    rw [hnone]
    exact ⟨none, rfl, .none⟩
  | ok k =>
    have hrecord := h.record id k hk
    simp only [runOn_fetch]
    generalize since id past = x at hrecord
    generalize m.get? k = v at hrecord
    cases hrecord with
    | none => exact ⟨none, rfl, .none⟩
    | some hv =>
      obtain ⟨time, rfl⟩ := hv
      simp only [decode?_stored]
      exact ⟨_, rfl, .some ⟨time, rfl⟩⟩

/-- A question for something of the record of an application. -/
theorem Tracks.answers {β : Type} (h : Tracks past m) (hholds : g.Holds m t)
    (hroom : ∀ k, Layout.application id = .ok k → g.store.HasRoom k) {f : ApplicationRecord → β}
    {f' : Deployed → β} (hf : ∀ d time, f (d.record time) = f' d) {reply : Option β → Reply}
    {op : Operation} (hop : op.request now = (ofRecord f id).request reply) :
    ((Registry.perform L g now op).run t).1.1 = .reply (reply ((since id past).map f')) := by
  refine hholds.answers (c := m) hop ?_ ?_
  · obtain ⟨x, hrun, hx⟩ := h.runOn_record? id
    rw [Transaction.runOn_bind, hrun]
    generalize since id past = y at hx
    cases hx with
    | none => rfl
    | some hr =>
      obtain ⟨time, rfl⟩ := hr
      simp only [runOn_pure, Option.map_some, hf]
  · refine Transaction.staysIn_bind ?_ fun _ _ _ => trivial
    unfold record?
    cases hk : Layout.application id with
    | error e => trivial
    | ok k => exact staysIn_fetch (hroom k hk)

/-- The records of the applications of an account, by name. -/
theorem Tracks.exists_records (h : Tracks past m) {a : AccountId} {base : Key}
    (hbase : Layout.ofAccount .applications a = .ok base) :
    ∃ found : List (Key × ApplicationRecord),
      Transaction.recordsIn m (.all base) = found.map (fun e => (e.1, stored e.2)) ∧
      found.map (·.2.specification) = (namesIn .applications a m).filterMap fun name =>
        (since (a.application name) past).map (·.specification) := by
  -- A record below the account is that of an application, whose name can be read off its key.
  have hrecord : ∀ e ∈ Transaction.recordsIn m (.all base), ∃ name d time,
      nameBelow base e.1 = some name ∧ since (a.application name) past = some d ∧
        e.2 = stored (Deployed.record d time) := by
    rintro ⟨k, v⟩ he
    obtain ⟨hmem, hbelow⟩ := List.mem_filter.mp he
    have hv := (OrderedMap.mem_toList_iff m k v).mp hmem
    have hin := Layout.holds_of_isBelow hbase (Transaction.contains_all base k ▸ hbelow)
    obtain ⟨⟨b, name⟩, hk⟩ := h.only a k hin (by rw [hv]; rfl)
    obtain rfl : b = a := ((Layout.holds_application hk).unique hin).2
    obtain ⟨d, time, hd, rfl⟩ := h.since_of_record hk hv
    refine ⟨name, d, time, nameBelow_eq_some_iff.mpr ?_, hd, rfl⟩
    rw [(Layout.spells_ofApplication .applications _ k).mp hk,
      (Layout.spells_ofAccount .applications b base).mp hbase]
    rfl
  obtain ⟨found, hfound⟩ := exists_eq_map_stored (β := ApplicationRecord) fun e he => by
    obtain ⟨_, d, time, -, -, h⟩ := hrecord e he
    exact ⟨d.record time, h⟩
  refine ⟨found, hfound, ?_⟩
  simp only [namesIn, hbase]
  rw [hfound, List.filterMap_map, List.filterMap_filterMap, ← List.filterMap_eq_map]
  refine List.filterMap_congr fun e he => ?_
  obtain ⟨name, d, time, hname, hd, hstored⟩ :=
    hrecord (e.1, stored e.2) (hfound ▸ List.mem_map_of_mem he)
  simp only [Function.comp_apply, hname, Option.bind_some, hd, Option.map_some, stored_inj hstored]
  rfl

end Questions

end Application

/-! ## Reachable states -/

namespace Registry

variable {σ : Type} {L : Loader σ} {g : Registry σ} {t : FileTree}
  {past : List (Operation × Answer)}

/-- In every reachable state the records of applications are in step with what was asked and
answered, if the loader applied all that was committed. -/
theorem Reached.tracksApplications (h : Reached L past g t) (happlied : L.AppliedIn past) :
    ∃ m, g.Holds m t ∧ Application.Tracks past m :=
  h.exists_holds_of_appliedIn happlied Application.tracks_nil
    (fun _ _ _ _ _ _ hm h hg => h.gives hm hg) fun _ op _ _ ha h =>
    h.unchanged (fun _ => Application.follow_of_not_reply ha op) fun _ _ _ => rfl

/-- **The table of applications.** In every state that is reached with a loader that applied all that
was committed, as one that never fails to apply a change does (`Loader.Applies.appliedIn`), the
specification and the archive of an application, for whose record there is room, are those of its
latest deployment, with the instance counts that were set since, or there are none if it was never
deployed or was removed since. The specifications of an account are those of its applications, in
the strict order of their names. -/
theorem application_table (h : Reached L past g t) (happlied : L.AppliedIn past) :
    (∀ id now, (∀ k, Layout.application id = .ok k → g.store.HasRoom k) →
      ((perform L g now (.specification id)).run t).1.1 =
        .reply (.specification ((Application.since id past).map (·.specification))) ∧
      ((perform L g now (.location id)).run t).1.1 =
        .reply (.location ((Application.since id past).map (·.location)))) ∧
    ∀ a, ∃ names : List String, names.Pairwise (· < ·) ∧
      (∀ name, name ∈ names ↔ (Application.since (a.application name) past).isSome) ∧
      ∀ now, ((perform L g now (.specifications a)).run t).1.1 =
        .reply (.specifications (names.filterMap fun name =>
          (Application.since (a.application name) past).map (·.specification))) := by
  obtain ⟨m, hholds, htracks⟩ := h.tracksApplications happlied
  refine ⟨fun id now hroom => ⟨?_, ?_⟩, fun a => ?_⟩
  · exact htracks.answers hholds hroom (fun _ _ => rfl) rfl
  · exact htracks.answers hholds hroom (fun _ _ => rfl) rfl
  · refine ⟨namesIn .applications a m, namesIn_ascending, fun name => ?_, fun now => ?_⟩
    · rw [mem_namesIn_iff]
      constructor
      · rintro ⟨k, hk, hsome⟩
        obtain ⟨v, hv⟩ := Option.isSome_iff_exists.mp hsome
        obtain ⟨d, _, hd, -⟩ := htracks.since_of_record hk hv
        rw [hd]
        rfl
      · intro hsome
        obtain ⟨d, hd⟩ := Option.isSome_iff_exists.mp hsome
        obtain ⟨k, hk⟩ := htracks.storable _ d hd
        obtain ⟨time, hget⟩ := htracks.record_of_since hd hk
        exact ⟨k, hk, by rw [hget]; rfl⟩
    · cases hbase : Layout.ofAccount .applications a with
      | error e =>
        have hop : (Operation.specifications a).request now =
            .known (.reply (.specifications [])) := by
          show (Application.specifications a).request .specifications = _
          rw [Application.specifications, hbase]
          rfl
        rw [perform_eq_serve, hop, namesIn, hbase]
        rfl
      | ok base =>
        obtain ⟨found, hfound, hspecifications⟩ := htracks.exists_records hbase
        have hop : (Operation.specifications a).request now = .ask .specifications (do
            return (← fetchRange ApplicationRecord (.all base)).map fun e => e.2.specification) := by
          show (Application.specifications a).request .specifications = _
          rw [Application.specifications, hbase]
          rfl
        rw [hholds.answers_fetchRange hop hfound, hspecifications]

/-! ### A procedure that is scaled -/

/-- An application of a shop. -/
def shop : ApplicationId := ⟨⟨"acme"⟩, "shop"⟩

/-- A specification with one procedure in a number of instances. -/
def pricing (n : UInt32) : Specification :=
  { procedures := .ofList [("price", ⟨"price", "Price", "", n, ∅⟩)] }

/-- The procedure is deployed in two instances and set to five. -/
def scaled : List TimedOperation :=
  [(noon, .addApplication shop (pricing 2) ⟨"shop.jar"⟩),
    (noon, .setInstances (shop.program "price") .procedure 5)]

theorem application_table_scaled : ∃ g t, (Loader.ofSpecification Unit).Applies ∧
    Reached (.ofSpecification Unit) (history scaled [.reply .done, .reply .done]) g t ∧ ∀ now,
      ((perform (.ofSpecification Unit) g now (.specification shop)).run t).1.1 =
        .reply (.specification (some (pricing 5))) ∧
      ((perform (.ofSpecification Unit) g now (.location shop)).run t).1.1 =
        .reply (.location (some ⟨"shop.jar"⟩)) := by
  have happlies : (Loader.ofSpecification Unit).Applies := fun _ _ _ => rfl
  obtain ⟨g, t, hreached, hroot⟩ := reached_inMemory (.ofSpecification Unit) () .empty
    scaled [.reply .done, .reply .done] (by decide +kernel) (by decide)
  have hsince : Application.since shop (history scaled [.reply .done, .reply .done]) =
      some ⟨pricing 5, ⟨"shop.jar"⟩⟩ := by decide +kernel
  refine ⟨g, t, happlies, hreached, fun now => ?_⟩
  have htable := (application_table hreached (happlies.appliedIn _)).1 shop now
    fun _ _ root hr => absurd (hroot.symm.trans hr) nofun
  simpa only [hsince, Option.map_some] using htable

end Registry

end AppRegistry
