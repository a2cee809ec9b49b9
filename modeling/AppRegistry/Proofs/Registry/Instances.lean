import AppRegistry.Proofs.Registry.Patches
import AppRegistry.Proofs.Registry.Publication
import AppRegistry.Proofs.Registry.Table

/-!
# Instance counts

Nothing is stored that runs in no instance: a deployment is checked as a whole, and a change of a
count is checked before it is made.

**Theorem (`instance_counts_positive`).** Whatever operations on an empty store lead to, and
whatever the loader did on the way, every flowlet, every runnable of a service and every procedure
of a stored application has at least one instance, and so do those in all answers.

The invariant of the map is `AllRunning`. As a deployment stands even if the loader cannot apply it,
the operations that fail have to keep it too.
-/

namespace AppRegistry

open RegistryTransaction

/-! ## Specifications -/

/-- Whether every flowlet, every runnable of a service and every procedure runs in at least one
instance. -/
structure Specification.Running (s : Specification) : Prop where
  flowlets : ∀ name f, s.flows.get? name = some f →
    ∀ part x, f.flowlets.get? part = some x → 1 ≤ x.instances
  runnables : ∀ name v, s.services.get? name = some v →
    ∀ part x, v.runnables.get? part = some x → 1 ≤ x.instances
  procedures : ∀ name x, s.procedures.get? name = some x → 1 ≤ x.instances

section Specifications
variable {s : Specification} {p : ProgramId} {x : Scalable} {n : UInt32}

/-- The check of a deployment goes through all counts. -/
theorem Specification.running_iff : s.Running ↔ s.instanceCounts.find? (· < 1) = none := by
  rw [List.find?_eq_none]
  simp only [instanceCounts, List.mem_append, List.mem_flatMap, List.mem_map,
    OrderedMap.mem_values_iff, decide_eq_true_eq, UInt32.not_lt]
  constructor
  · rintro h n ((⟨f, ⟨name, hf⟩, y, ⟨part, hy⟩, rfl⟩ | ⟨v, ⟨name, hv⟩, y, ⟨part, hy⟩, rfl⟩) |
      ⟨y, ⟨name, hy⟩, rfl⟩)
    · exact h.flowlets name f hf part y hy
    · exact h.runnables name v hv part y hy
    · exact h.procedures name y hy
  · intro h
    refine ⟨fun name f hf part y hy => ?_, fun name v hv part y hy => ?_, fun name y hy => ?_⟩
    · exact h _ (.inl (.inl ⟨f, ⟨name, hf⟩, y, ⟨part, hy⟩, rfl⟩))
    · exact h _ (.inl (.inr ⟨v, ⟨name, hv⟩, y, ⟨part, hy⟩, rfl⟩))
    · exact h _ (.inr ⟨y, ⟨name, hy⟩, rfl⟩)

theorem Specification.Running.count (h : s.Running) (hn : x.count s p = .ok n) : 1 ≤ n := by
  have hn := Scalable.count_eq_ok_iff.mp hn
  cases x with
  | flowlet name =>
    obtain ⟨f, hf, hcount⟩ := Option.bind_eq_some_iff.mp hn
    obtain ⟨part, hpart, rfl⟩ := Option.map_eq_some_iff.mp hcount
    exact h.flowlets _ f hf name part hpart
  | runnable name =>
    obtain ⟨v, hv, hcount⟩ := Option.bind_eq_some_iff.mp hn
    obtain ⟨part, hpart, rfl⟩ := Option.map_eq_some_iff.mp hcount
    exact h.runnables _ v hv name part hpart
  | procedure =>
    obtain ⟨part, hpart, rfl⟩ := Option.map_eq_some_iff.mp hn
    exact h.procedures _ part hpart

theorem Specification.Running.setCount (h : s.Running) (hn : 1 ≤ n) :
    (x.setCount s p n).Running := by
  cases x with
  | flowlet name =>
    simp only [Scalable.setCount]
    split
    · exact h
    · next f hf =>
      split
      · exact h
      · refine ⟨?_, h.runnables, h.procedures⟩
        exact OrderedMap.forall_insert _ h.flowlets
          (OrderedMap.forall_insert _ (h.flowlets _ f hf) hn)
  | runnable name =>
    simp only [Scalable.setCount]
    split
    · exact h
    · next v hv =>
      split
      · exact h
      · refine ⟨h.flowlets, ?_, h.procedures⟩
        exact OrderedMap.forall_insert _ h.runnables
          (OrderedMap.forall_insert _ (h.runnables _ v hv) hn)
  | procedure =>
    simp only [Scalable.setCount]
    split
    · exact h
    · exact ⟨h.flowlets, h.runnables, OrderedMap.forall_insert _ h.procedures hn⟩

end Specifications

/-! ## Records -/

section Records
variable {m m' : OrderedMap Key Json} {id : ApplicationId} {k : Key} {r : ApplicationRecord}
  {op : Operation} {a : Answer} {now : Instant}

/-- **Only a publication puts in the record of an application.** -/
theorem Operation.get?_of_gives (hop : op.publishes = none) (hm : AllStorable m)
    (hg : (op.request now).Gives m a m') {b : AccountId} {v : Json}
    (hk : Keyspace.applications.Holds b k) (hv : m'.get? k = some v) : m.get? k = some v := by
  have hkept : ¬ op.Writes k → m.get? k = some v := fun hw =>
    (hg.get?_eq (op.alike now now) hm hw).symm.trans hv
  cases op with
  | addApplication | setInstances => cases hop
  | removeApplication id =>
    obtain ⟨-, hremoved⟩ := gives_removeApplication hg
    by_cases hid : Layout.application id = .ok k
    · cases ((hremoved b k hk).1 hid).symm.trans hv
    · exact ((hremoved b k hk).2 hid).symm.trans hv
  | removeApplications c =>
    obtain ⟨-, hremoved⟩ := gives_removeApplications hg
    by_cases hb : b = c
    · exact (hremoved k (hb ▸ hk)).2 v hv
    · refine hkept fun hw => ?_
      rcases hw with hw | hw
      · exact hb (hk.unique hw).2
      · exact hw.not_application (by decide) b hk
  | removeAccount c =>
    obtain ⟨-, hnone⟩ := gives_removeAccount hg
    refine hkept fun hw => ?_
    cases (hnone k hw).symm.trans hv
  | startRun | stopRun => exact hkept fun hw => Run.Owns.not_application hw b hk
  | setArguments => exact hkept fun hw => Keyspace.Holds.not_application hw (by decide) b hk
  | _ => exact hkept fun hw => hw

/-- Every record among those of applications is a record of one, and all of it runs. -/
def AllRunning (m : OrderedMap Key Json) : Prop :=
  ∀ a k v, Keyspace.applications.Holds a k → m.get? k = some v →
    ∃ r : ApplicationRecord, v = stored r ∧ r.specification.Running

namespace AllRunning

theorem empty : AllRunning ∅ := fun a k v _ hv => by simp at hv

theorem insert (h : AllRunning m) (hr : r.specification.Running)
    (hget : ∀ a l, Keyspace.applications.Holds a l →
      m'.get? l = if k = l then some (stored r) else m.get? l) : AllRunning m' := by
  intro a l v hl hv
  rw [hget a l hl] at hv
  split at hv
  · exact ⟨r, (Option.some.inj hv).symm, hr⟩
  · exact h a l v hl hv

theorem decoded {b : AccountId} {v : Json} (h : AllRunning m)
    (hk : Keyspace.applications.Holds b k) (hv : m.get? k = some v) (hr : decode? v = some r) :
    r.specification.Running := by
  obtain ⟨r', rfl, hrunning⟩ := h b k v hk hv
  obtain rfl : r' = r := Option.some.inj ((decode?_stored r').symm.trans hr)
  exact hrunning

theorem record? (h : AllRunning m)
    (hrun : (Application.record? id).runOn m = (.done (some r), m')) :
    r.specification.Running := by
  obtain ⟨-, k, v, hk, hv, hr⟩ := record?_of_runOn hrun
  exact h.decoded (Layout.holds_application hk) hv hr

theorem required (h : AllRunning m) (hrun : (Application.required id).runOn m = (.done r, m')) :
    r.specification.Running := by
  obtain ⟨-, k, v, hk, hv, hr⟩ := required_of_runOn hrun
  exact h.decoded (Layout.holds_application hk) hv hr

/-- **Every operation keeps all of it running**, whether or not it gets through. -/
theorem gives (h : AllRunning m) (hm : AllStorable m) (hg : (op.request now).Gives m a m') :
    AllRunning m' := by
  cases op with
  | addApplication id s l =>
    rcases gives_addApplication_cases hg with ⟨rfl, -⟩ | ⟨hcounts, k, catalog, hk, hmerge, rfl⟩
    · exact h
    · have hrunning : s.Running := Specification.running_iff.mpr hcounts
      refine h.insert (k := k) (r := ⟨s, l, now⟩) hrunning fun b l hl => ?_
      rw [OrderedMap.get?_insert, get?_mergeCatalog hm hmerge hl]
  | setInstances p x n =>
    rcases gives_setInstances_cases hg with ⟨rfl, -⟩ | ⟨hn, k, v, r, c, hk, hv, hr, -, rfl⟩
    · exact h
    · have hrunning := h.decoded (Layout.holds_application hk) hv hr
      exact h.insert (k := k) (r := { r with
          specification := x.setCount r.specification p n, lastUpdated := now })
        (hrunning.setCount hn) fun b l _ => OrderedMap.get?_insert _ _ _ _
  | _ => exact fun b k v hk hv => h b k v hk (Operation.get?_of_gives rfl hm hg hk hv)

/-- The records of the applications of an account. -/
theorem exists_records {b : AccountId} {base : Key} (h : AllRunning m)
    (hbase : Layout.ofAccount .applications b = .ok base) :
    ∃ found : List (Key × ApplicationRecord),
      Transaction.recordsIn m (.all base) = found.map (fun e => (e.1, stored e.2)) ∧
      ∀ e ∈ found, e.2.specification.Running := by
  have hrecord : ∀ e ∈ Transaction.recordsIn m (.all base), ∃ r : ApplicationRecord,
      e.2 = stored r ∧ r.specification.Running := by
    rintro ⟨k, v⟩ he
    obtain ⟨hmem, hbelow⟩ := List.mem_filter.mp he
    exact h b k v
      (Layout.holds_of_isBelow hbase (Transaction.contains_all base k ▸ hbelow))
      ((OrderedMap.mem_toList_iff m k v).mp hmem)
  obtain ⟨found, hfound⟩ := exists_eq_map_stored fun e he => (hrecord e he).imp fun _ h => h.1
  refine ⟨found, hfound, fun e he => ?_⟩
  obtain ⟨r, hr, hrunning⟩ := hrecord (e.1, stored e.2) (hfound ▸ List.mem_map_of_mem he)
  exact stored_inj hr ▸ hrunning

/-! ### Replies -/

section Replies
variable {reply : Reply} (h : AllRunning m)
include h

theorem gives_specification {id : ApplicationId}
    (hg : ((Operation.specification id).request now).Gives m (.reply reply) m') :
    ∃ found, reply = .specification found ∧ ∀ s ∈ found, s.Running := by
  obtain ⟨found, hrun, rfl⟩ := hg.of_reply
  refine ⟨found, rfl, ?_⟩
  obtain ⟨record, _, hrecord, hends⟩ := Transaction.of_runOn_bind hrun
  cases hends
  rintro s hs
  obtain ⟨r, rfl, rfl⟩ := Option.map_eq_some_iff.mp hs
  exact h.record? hrecord

theorem gives_specifications {b : AccountId}
    (hg : ((Operation.specifications b).request now).Gives m (.reply reply) m') :
    ∃ l, reply = .specifications l ∧ ∀ s ∈ l, s.Running := by
  have hop : (Operation.specifications b).request now =
      (Application.specifications b).request .specifications := rfl
  rw [hop, Application.specifications] at hg
  cases hbase : Layout.ofAccount .applications b with
  | error e =>
    rw [hbase] at hg
    cases hg
    exact ⟨[], rfl, List.forall_mem_nil _⟩
  | ok base =>
    rw [hbase] at hg
    obtain ⟨l, hrun, rfl⟩ := hg.of_reply
    obtain ⟨found, hfound, hrunning⟩ := h.exists_records hbase
    have hends := runOn_fetchRange hfound fun found => found.map (·.2.specification)
    cases hends.symm.trans hrun
    refine ⟨_, rfl, fun s hs => ?_⟩
    obtain ⟨e, he, rfl⟩ := List.mem_map.mp hs
    exact hrunning e he

theorem gives_instances {p : ProgramId} {x : Scalable}
    (hg : ((Operation.instances p x).request now).Gives m (.reply reply) m') :
    ∃ n, reply = .count n ∧ 1 ≤ n := by
  obtain ⟨n, hrun, rfl⟩ := hg.of_reply
  refine ⟨n, rfl, ?_⟩
  obtain ⟨record, _, hrecord, hends⟩ := Transaction.of_runOn_bind hrun
  cases hn : x.count record.specification p with
  | error e =>
    rw [hn] at hends
    cases hends
  | ok c =>
    rw [hn] at hends
    cases hends
    exact (h.required hrecord).count hn

end Replies

end AllRunning

end Records

/-! ## Answers -/

namespace Registry

variable {σ : Type} {L : Loader σ} {g : Registry σ} {t : FileTree} {m : OrderedMap Key Json}
  {now : Instant} {op : Operation} {r : Reply}

/-- An operation that gets through replies what its request gives. -/
theorem Keeps.gives_reply (h : g.Keeps m t) (hL : ∀ root, g.store.root? = some root → L.Spares root)
    (hr : ((perform L g now op).run t).1.1 = .reply r) :
    ∃ m', (op.request now).Gives m (.reply r) m' := by
  rw [perform_eq_serve] at hr
  generalize hrun : (g.serve L (op.request now)).run t = ran at hr
  obtain ⟨⟨a, g'⟩, t'⟩ := ran
  obtain rfl : a = .reply r := hr
  obtain ⟨m', -, -, -, -, hends⟩ := h.serve hL (op.alike now now) hrun
  rcases hends with hgives | ⟨-, hpanic | ⟨⟨e, he⟩, -⟩⟩
  · exact ⟨m', hgives⟩
  · cases hpanic
  · cases he

/-- **Every instance count is at least one.** In every state that operations on an empty store lead
to, whatever the loader answers and whether or not it panicked, all of every stored application runs
in at least one instance. So does all that the registry replies: specifications, instance counts
and, if programs are loaded from the stored specification, programs. -/
theorem instance_counts_positive (h : Arises L g t) :
    (∀ a k v, Keyspace.applications.Holds a k → (g.store.snapshot t).get k = .ok (some v) →
      ∃ r : ApplicationRecord, v = stored r ∧ r.specification.Running) ∧
    (∀ now id r, ((perform L g now (.specification id)).run t).1.1 = .reply r →
      ∃ found, r = .specification found ∧ ∀ s ∈ found, s.Running) ∧
    (∀ now a r, ((perform L g now (.specifications a)).run t).1.1 = .reply r →
      ∃ l, r = .specifications l ∧ ∀ s ∈ l, s.Running) ∧
    (∀ now p x r, ((perform L g now (.instances p x)).run t).1.1 = .reply r →
      ∃ n, r = .count n ∧ 1 ≤ n) ∧
    (L = .ofSpecification σ →
      ∀ now p kind r, ((perform L g now (.loadProgram p kind)).run t).1.1 = .reply r →
        ∃ program, r = .program program ∧ program.specification.Running) := by
  obtain ⟨m, hkeeps, hrunning, hL⟩ := h.exists_keeps AllRunning.empty
    fun _ _ _ _ _ hm hrunning hg => hrunning.gives hm hg
  refine ⟨fun a k v hk hv => ?_, fun now id r hr => ?_, fun now a r hr => ?_,
    fun now p x r hr => ?_, ?_⟩
  · have hget := hkeeps.store.sees.base.get k ⟨_, hv⟩
    rw [hv] at hget
    exact hrunning a k v hk (Except.ok.inj hget).symm
  · obtain ⟨m', hg⟩ := hkeeps.gives_reply hL hr
    exact hrunning.gives_specification hg
  · obtain ⟨m', hg⟩ := hkeeps.gives_reply hL hr
    exact hrunning.gives_specifications hg
  · obtain ⟨m', hg⟩ := hkeeps.gives_reply hL hr
    exact hrunning.gives_instances hg
  · rintro rfl now p kind r hr
    obtain ⟨-, hloaded⟩ := hkeeps.load (F := (Operation.loadProgram p kind).footprint) hL
      ((Operation.loadProgram p kind).alike now now) rfl
    obtain ⟨record, program, y, t₁, hrecord, hload, rfl⟩ := hloaded r hr
    cases hload
    exact ⟨_, rfl, hrunning.required hrecord⟩

/-! ### A count that cannot be zero -/

/-- After the procedure was scaled, it is to run in no instance. -/
def scaledDown : List TimedOperation :=
  scaled ++ [(noon, .setInstances (shop.program "price") .procedure 0),
    (noon, .addApplication shop (pricing 0) ⟨"shop.jar"⟩)]

theorem instance_counts_positive_scaledDown : ∃ g t, Arises (.ofSpecification Unit) g t ∧
    ∃ n, ((perform (.ofSpecification Unit) g noon
      (.instances (shop.program "price") .procedure)).run t).1.1 = .reply (.count n) ∧ 1 ≤ n := by
  generalize hrun : (performAll (.ofSpecification Unit) (onStore (.memory .empty) ())
    scaledDown).run .empty = ran
  have hcount : ((perform (.ofSpecification Unit) ran.1.2 noon
      (.instances (shop.program "price") .procedure)).run ran.2).1.1 = .reply (.count 5) := by
    rw [← hrun]
    decide +kernel
  have harises : Arises (.ofSpecification Unit) ran.1.2 ran.2 :=
    ⟨.memory .empty, (), .empty, scaledDown, ran.1.1, rfl, nofun, hrun⟩
  obtain ⟨-, -, -, hinstances, -⟩ := instance_counts_positive harises
  obtain ⟨n, hn, hpositive⟩ := hinstances _ _ _ _ hcount
  exact ⟨_, _, harises, n, hn ▸ hcount, hpositive⟩

end Registry

end AppRegistry
