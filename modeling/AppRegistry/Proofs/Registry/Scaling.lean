import AppRegistry.Proofs.Registry.Ownership
import AppRegistry.Proofs.Registry.Patches

/-!
# Setting an instance count

**Theorem (`instance_setters_exact`).** In every reachable state of a registry whose loader touches
no archive, setting an instance count is refused for one of four reasons, checked in this order, and
otherwise patches the one count (`Application.ScalingAnswers`). A refusal leaves the store as it was,
and a patch leaves every other record, the location of the archive and all else of the
specification. Counts of different parts can be set in either order; only the times of last updates
may differ. Where the store has no room for an application that is not stored
(`Registry.HasRoomFor`), an error of the store may be the refusal.

All of it is read off one function over the map, `Scalable.patched`: it says where the patched
record goes or why there is none.
-/

namespace AppRegistry

open RegistryTransaction Application

variable {m m' : OrderedMap Key Json} {k l : Key} {P : Key → Prop} {id : ApplicationId}
  {p q : ProgramId} {x y : Scalable} {n n' : UInt32} {now : Instant}

theorem AllAdmissible.recordIn_eq_none_iff (hm : AllAdmissible P m) :
    recordIn m id = none ↔ ¬ IsStored m id := by
  unfold recordIn IsStored
  cases hk : Layout.application id with
  | error e => simp
  | ok k =>
    cases hv : m.get? k with
    | none => simp [hv]
    | some v =>
      obtain ⟨_, r, -, hr⟩ := (hm k v hv).typed.typed (Layout.holds_application hk)
      simp [hv, hr]

/-! ## One setter -/

/-- The key of an application and what is deployed as it once a count is set, or why the count
cannot be set. -/
def Scalable.patched (m : OrderedMap Key Json) (p : ProgramId) (x : Scalable) (n : UInt32) :
    Except RegistryError (Key × Deployed) :=
  if n < 1 then .error (.invalidInstances n)
  else
    match recordIn m p.application with
    | none => .error (.applicationNotFound p.application)
    | some (k, r) =>
      match x.count r.specification p with
      | .error e => .error e
      | .ok _ => .ok (k, ⟨x.setCount r.specification p n, r.location⟩)

/-- How setting a count is answered: with the refusals in the order of the checks, and otherwise
it is done. -/
structure Application.ScalingAnswers (m : OrderedMap Key Json) (p : ProgramId) (x : Scalable)
    (n : UInt32) (a : Answer) : Prop where
  invalid : a = .error (.invalidInstances n) ↔ n = 0
  unknown : a = .error (.applicationNotFound p.application) ↔ n ≠ 0 ∧ ¬ IsStored m p.application
  programless : a = .error (.programNotFound p x.kind) ↔ n ≠ 0 ∧
    ∃ k r, recordIn m p.application = some (k, r) ∧ r.specification.program? x.kind p.name = none
  partless : a = .error (.runnableNotFound p x.kind x.part) ↔ n ≠ 0 ∧
    ∃ k r, recordIn m p.application = some (k, r) ∧
      (r.specification.program? x.kind p.name).isSome ∧ x.instances? r.specification p.name = none
  done : a = .reply .done ↔ n ≠ 0 ∧
    ∃ k r, recordIn m p.application = some (k, r) ∧ (x.instances? r.specification p.name).isSome

/-- A count is set as `Scalable.patched` says. -/
theorem AllAdmissible.settle_setInstances (hm : AllAdmissible P m) (p : ProgramId) (x : Scalable)
    (n : UInt32) (now : Instant) : ((Operation.setInstances p x n).request now).settle m =
      match x.patched m p n with
      | .error e => (.error e, m)
      | .ok (k, d) => (.reply .done, m.insert k (stored (d.record now))) := by
  unfold Scalable.patched
  simp only [Operation.request]
  split
  · rfl
  · simp only [Request.settle, Scalable.patch, Transaction.runOn_bind, hm.runOn_required]
    cases hrecord : recordIn m p.application with
    | none => rfl
    | some e =>
      obtain ⟨k, r⟩ := e
      simp only
      cases x.count r.specification p with
      | error e => rfl
      | ok c =>
        simp only [(recordIn_eq_some_iff.mp hrecord).1, Transaction.runOn_bind, runOn_demandKey_ok]
        rfl

/-- **One of four refusals, or it is done.** -/
theorem AllAdmissible.scalingAnswers (hm : AllAdmissible P m) (p : ProgramId) (x : Scalable)
    (n : UInt32) (now : Instant) :
    ScalingAnswers m p x n (((Operation.setInstances p x n).request now).settle m).1 := by
  have hunknown : recordIn m p.application = none ↔ ¬ IsStored m p.application :=
    hm.recordIn_eq_none_iff
  rw [hm.settle_setInstances, Scalable.patched]
  -- The refusals in their order: the count, the application, the program, the part.
  by_cases hn : n = 0
  · rw [if_pos (UInt32.lt_one_iff.mpr hn)]
    constructor <;> simp [hn]
  rw [if_neg (hn ∘ UInt32.lt_one_iff.mp)]
  cases hrecord : recordIn m p.application with
  | none =>
    rw [hrecord] at hunknown
    constructor <;> simp_all
  | some e =>
    obtain ⟨k, r⟩ := e
    rw [hrecord] at hunknown
    simp only [Scalable.count_eq]
    cases hprogram : r.specification.program? x.kind p.name with
    | none =>
      have hpart : x.instances? r.specification p.name = none :=
        Option.eq_none_iff_forall_ne_some.mpr fun c hc => by
          simpa [hprogram] using Scalable.isSome_program?_of_instances? hc
      constructor <;> simp_all
    | some d => cases hpart : x.instances? r.specification p.name <;> constructor <;> simp_all

/-- What is patched is the record of the application, in the count of a part that it has. -/
theorem Scalable.patched_eq_ok {d : Deployed} (h : x.patched m p n = .ok (k, d)) :
    ∃ r c, recordIn m p.application = some (k, r) ∧ x.instances? r.specification p.name = some c ∧
      d = ⟨x.setCount r.specification p n, r.location⟩ := by
  unfold patched at h
  split at h
  · cases h
  · split at h
    · cases h
    · next k r hrecord =>
      split at h
      · cases h
      · next c hc =>
        cases h
        exact ⟨r, c, hrecord, count_eq_ok_iff.mp hc, rfl⟩

/-- **A refusal changes nothing, and otherwise the one count is patched.** -/
theorem AllAdmissible.settle_setInstances_cases (hm : AllAdmissible P m) (p : ProgramId)
    (x : Scalable) (n : UInt32) (now : Instant) :
    (∃ e, ((Operation.setInstances p x n).request now).settle m = (.error e, m)) ∨
    ∃ k r s, recordIn m p.application = some (k, r) ∧ x.Patches p.name n r.specification s ∧
      ((Operation.setInstances p x n).request now).settle m =
        (.reply .done, m.insert k (stored (⟨s, r.location, now⟩ : ApplicationRecord))) := by
  rw [hm.settle_setInstances]
  cases hx : x.patched m p n with
  | error e => exact .inl ⟨e, rfl⟩
  | ok a =>
    obtain ⟨k, d⟩ := a
    obtain ⟨r, c, hrecord, hc, rfl⟩ := Scalable.patched_eq_ok hx
    exact .inr ⟨k, r, _, hrecord, Scalable.patches_setCount hc n, rfl⟩

/-- A count is answered with what the record of the application says. -/
theorem AllAdmissible.settle_instances (hm : AllAdmissible P m) (p : ProgramId) (x : Scalable)
    (now : Instant) : ((Operation.instances p x).request now).settle m =
      (match recordIn m p.application with
        | none => .error (.applicationNotFound p.application)
        | some (_, r) => match x.count r.specification p with
          | .error e => .error e
          | .ok n => .reply (.count n), m) := by
  simp only [Operation.request, Scalable.stored, Query.request, Request.settle,
    Transaction.runOn_bind, hm.runOn_required]
  cases recordIn m p.application with
  | none => rfl
  | some e =>
    simp only
    cases x.count e.2.specification p <;> rfl

/-! ## Two setters -/

section Patched
variable {d d' : Deployed}

/-- Parts of one application differ in their names there or in the names of their programs. -/
theorem Scalable.other_part (happ : p.application = q.application) (hne : (p, x) ≠ (q, y)) :
    (q.name, y) ≠ (p.name, x) := by
  intro he
  obtain ⟨app, name⟩ := p
  obtain ⟨app', name'⟩ := q
  obtain rfl : app = app' := happ
  exact hne (congrArg (fun e : String × Scalable => (app.program e.1, e.2)) he.symm)

/-- What can be patched does not depend on the count of another part. -/
theorem Scalable.patched_insert (hne : (p, x) ≠ (q, y)) (hx : x.patched m p n = .ok (k, d)) :
    y.patched (m.insert k (AppRegistry.stored (d.record now))) q n' =
      (y.patched m q n').map fun e => if p.application = q.application then
        (k, ⟨y.setCount d.specification q n', d.location⟩) else e := by
  obtain ⟨r, c, hrecord, -, rfl⟩ := patched_eq_ok hx
  unfold patched
  rw [recordIn_insert (recordIn_eq_some_iff.mp hrecord).1]
  by_cases hn : n' < 1
  · rw [if_pos hn, if_pos hn]
    rfl
  rw [if_neg hn, if_neg hn]
  -- In the same application the second patch starts from what the first has left.
  by_cases happ : p.application = q.application
  · have hother := other_part happ hne
    rw [if_pos happ, ← happ, hrecord]
    simp only [Deployed.record, count_setCount_of_ne hother]
    cases y.count r.specification q with
    | error e => rfl
    | ok c => simp only [Except.map, if_true]
  · simp only [if_neg happ]
    exact (congrFun Except.map_id _).symm

theorem AllAdmissible.insert_patched (hm : AllAdmissible P m)
    (h : x.patched m p n = .ok (k, d)) (now : Instant) :
    AllAdmissible P (m.insert k (stored (d.record now))) := by
  obtain ⟨r, -, hrecord, -⟩ := Scalable.patched_eq_ok h
  have hk := (recordIn_eq_some_iff.mp hrecord).1
  exact hm.insert (admissible_application (hm.place_of_recordIn hrecord hk) hk _)

theorem AllAdmissible.after_setInstances (hm : AllAdmissible P m) (p : ProgramId) (x : Scalable)
    (n : UInt32) (now : Instant) :
    AllAdmissible P (((Operation.setInstances p x n).request now).settle m).2 := by
  rw [hm.settle_setInstances]
  cases hx : x.patched m p n with
  | error e => exact hm
  | ok a => exact hm.insert_patched hx now

theorem agree_record (hk : Layout.application id = .ok k) (d : Deployed) (i j : Instant) :
    Agree k (stored (d.record i)) (stored (d.record j)) :=
  ⟨storable_application _, storable_application _,
    .inr ⟨⟨_, Layout.holds_application hk⟩, _, _, rfl, rfl, rfl, rfl⟩⟩

theorem agree_patched (h : x.patched m p n = .ok (k, d)) (i j : Instant) :
    Agree k (stored (d.record i)) (stored (d.record j)) := by
  obtain ⟨r, -, hrecord, -⟩ := Scalable.patched_eq_ok h
  exact agree_record (recordIn_eq_some_iff.mp hrecord).1 d i j

/-- **Counts of different parts are set in either order.** -/
theorem settleAll_setInstances_comm (hm : AllAdmissible P m) (hne : (p, x) ≠ (q, y))
    (n n' : UInt32) (t₁ t₂ t₃ t₄ : Instant) : ∃ a b m₁ m₂,
      Registry.settleAll m [(t₁, .setInstances p x n), (t₂, .setInstances q y n')] = ([a, b], m₁) ∧
      Registry.settleAll m [(t₃, .setInstances q y n'), (t₄, .setInstances p x n)] = ([b, a], m₂) ∧
      AgreeOn (fun _ => True) m₁ m₂ := by
  have hself : AgreeOn (fun _ => True) m m := hm.storable.agreeOn _
  simp only [Registry.settleAll, hm.settle_setInstances]
  cases hx : x.patched m p n with
  | error e =>
    cases hy : y.patched m q n' with
    | error e' =>
      simp only [hm.settle_setInstances, hx, hy]
      exact ⟨_, _, _, _, rfl, rfl, hself⟩
    | ok b =>
      obtain ⟨l, d'⟩ := b
      simp only [hm.settle_setInstances, (hm.insert_patched hy _).settle_setInstances,
        Scalable.patched_insert hne.symm hy, hx, hy, Except.map]
      exact ⟨_, _, _, _, rfl, rfl, hself.insert (agree_patched hy t₂ t₃)⟩
  | ok a =>
    obtain ⟨k, d⟩ := a
    have hm₁ := hm.insert_patched hx
    cases hy : y.patched m q n' with
    | error e' =>
      simp only [hm.settle_setInstances, (hm₁ _).settle_setInstances,
        Scalable.patched_insert hne hx, hx, hy, Except.map]
      exact ⟨_, _, _, _, rfl, rfl, hself.insert (agree_patched hx t₁ t₄)⟩
    | ok b =>
      obtain ⟨l, d'⟩ := b
      simp only [(hm₁ _).settle_setInstances, (hm.insert_patched hy _).settle_setInstances,
        Scalable.patched_insert hne hx, Scalable.patched_insert hne.symm hy, hx, hy, Except.map]
      refine ⟨_, _, _, _, rfl, rfl, ?_⟩
      obtain ⟨r, c, hrecord, hc, rfl⟩ := Scalable.patched_eq_ok hx
      obtain ⟨r', c', hrecord', hc', rfl⟩ := Scalable.patched_eq_ok hy
      -- In one application both counts are patched in one record, and else there are two records.
      by_cases happ : p.application = q.application
      · rw [happ, hrecord'] at hrecord
        obtain ⟨rfl, rfl⟩ := Prod.mk.inj (Option.some.inj hrecord)
        rw [if_pos happ, if_pos happ.symm]
        simp only [OrderedMap.insert_insert,
          Scalable.setCount_comm (Scalable.other_part happ hne) hc hc']
        exact hself.insert (agree_record (recordIn_eq_some_iff.mp hrecord').1 ⟨_, _⟩ t₂ t₄)
      · have hkl : l ≠ k := by
          rintro rfl
          exact happ (Layout.application_inj (recordIn_eq_some_iff.mp hrecord).1
            (recordIn_eq_some_iff.mp hrecord').1)
        rw [if_neg happ, if_neg (Ne.symm happ), OrderedMap.insert_comm hkl]
        exact (hself.insert (agree_patched hx t₁ t₄)).insert (agree_patched hy t₂ t₃)

end Patched

/-! ## Reachable states -/

namespace Registry

variable {σ : Type} {g : Registry σ} {t : FileTree} {past : List (Operation × Answer)}

/-- Whether there is room for the record of an application that is not stored yet. -/
def HasRoomFor (g : Registry σ) (m : OrderedMap Key Json) (id : ApplicationId) : Prop :=
  ∀ k, Layout.application id = .ok k → m.get? k = none → g.store.HasRoom k

theorem HasRoomFor.room (h : g.HasRoomFor m id) (hm : AllAdmissible g.store.HasRoom m)
    (hk : Layout.application id = .ok k) : g.store.HasRoom k := by
  cases hv : m.get? k with
  | none => exact h k hk hv
  | some v => exact (hm k v hv).place

/-- An application is stored only where there is room. -/
theorem recordIn_of_not_hasRoomFor (h : ¬ g.HasRoomFor m id) : recordIn m id = none := by
  unfold HasRoomFor at h
  push Not at h
  obtain ⟨k, hk, hnone, -⟩ := h
  simp [recordIn, hk, hnone]

/-- **A count is set as over the map**, only that an error of the store may stand for an application
that is not stored and for which there is no room. -/
theorem Holds.sets (h : g.Holds m t) (hm : AllAdmissible g.store.HasRoom m) (now : Instant)
    (p : ProgramId) (x : Scalable) (n : UInt32) : ∃ a g' t',
      (perform (.ofSpecification σ) g now (.setInstances p x n)).run t = ((a, g'), t') ∧
      g'.Holds (((Operation.setInstances p x n).request now).settle m).2 t' ∧
      g'.store.root? = g.store.root? ∧
      (a = (((Operation.setInstances p x n).request now).settle m).1 ∨
        ¬ g.HasRoomFor m p.application ∧ n ≠ 0 ∧ ∃ e, a = .error (.storage e)) := by
  rw [perform_eq_serve]
  by_cases hroom : g.HasRoomFor m p.application
  · obtain ⟨g', t', hrun, hafter, hroot⟩ := h.settles hm
      ((Operation.setInstances p x n).sound now fun _ hk => hroom.room hm hk)
    exact ⟨_, g', t', hrun, hafter, hroot, .inl rfl⟩
  have halike := (Operation.setInstances p x n).alike now now
  -- Without room the application is not stored, so the setter is refused either way.
  have hnone := recordIn_of_not_hasRoomFor hroom
  by_cases hn : n = 0
  · subst hn
    exact ⟨_, g, t, rfl, h, rfl, .inl rfl⟩
  · have hpos : ¬ n < 1 := hn ∘ UInt32.lt_one_iff.mp
    have hsettle := hm.settle_setInstances p x n now
    simp only [Operation.request, Scalable.patched, hnone, hpos, if_false] at halike hsettle ⊢
    have hrejected :
        ((x.patch p n now).runOn m).1 = .rejected (.applicationNotFound p.application) := by
      simp only [Scalable.patch, Transaction.runOn_bind, hm.runOn_required, hnone]
    obtain ⟨e, hrun, he⟩ := h.publish_of_rejected halike hrejected
    rw [hsettle]
    refine ⟨_, g, t, hrun, h, rfl, ?_⟩
    rcases he with rfl | ⟨e, rfl⟩
    · exact .inl rfl
    · exact .inr ⟨hroom, hn, e, rfl⟩

/-- The record of its application decides how a program is loaded. -/
theorem Holds.answers_load {m : OrderedMap Key Json} {r : ApplicationRecord} (h : g.Holds m t)
    (hm : AllAdmissible g.store.HasRoom m) (hrecord : recordIn m p.application = some (k, r))
    (kind : ProgramKind) (now : Instant) :
    ((perform (.ofSpecification σ) g now (.loadProgram p kind)).run t).1.1 =
      if (r.specification.program? kind p.name).isNone then .error (.programNotFound p kind)
      else .reply (.program ⟨p, kind, r.location, r.specification⟩) := by
  obtain ⟨_, _, hloaded, -⟩ := h.settles hm
    ((Operation.loadProgram p kind).sound now fun _ hl => hm.place_of_recordIn hrecord hl)
  rw [perform_eq_serve, hloaded]
  simp only [Operation.request, hm.settle_load, hrecord]

/-- What is stored is what is answered for a count and what the program is loaded with. -/
theorem Holds.answers_count {m : OrderedMap Key Json} {r : ApplicationRecord} (h : g.Holds m t)
    (hm : AllAdmissible g.store.HasRoom m) (hrecord : recordIn m p.application = some (k, r))
    (hn : x.instances? r.specification p.name = some n) (now : Instant) :
    ((perform (.ofSpecification σ) g now (.instances p x)).run t).1.1 = .reply (.count n) ∧
      ((perform (.ofSpecification σ) g now (.loadProgram p x.kind)).run t).1.1 =
        .reply (.program ⟨p, x.kind, r.location, r.specification⟩) := by
  constructor
  · obtain ⟨_, _, hcounted, -⟩ := h.settles hm
      ((Operation.instances p x).sound now fun _ hl => hm.place_of_recordIn hrecord hl)
    rw [perform_eq_serve, hcounted]
    simp only [hm.settle_instances, hrecord, Scalable.count_eq_ok_iff.mpr hn]
  · have hfound := Option.isSome_iff_ne_none.mp (Scalable.isSome_program?_of_instances? hn)
    rw [h.answers_load hm hrecord, if_neg (hfound ∘ Option.isNone_iff_eq_none.mp)]

/-- **Two counts are set as over the map**, with the answers as far as there is room. -/
theorem Holds.sets_two (h : g.Holds m t) (hm : AllAdmissible g.store.HasRoom m) (p q : ProgramId)
    (x y : Scalable) (n n' : UInt32) (i j : Instant) : ∃ a b g' t',
      (Registry.performAll (.ofSpecification σ) g
        [(i, .setInstances p x n), (j, .setInstances q y n')]).run t = (([a, b], g'), t') ∧
      g'.Holds (settleAll m [(i, .setInstances p x n), (j, .setInstances q y n')]).2 t' ∧
      (g.HasRoomFor m p.application → g.HasRoomFor m q.application →
        [a, b] = (settleAll m [(i, .setInstances p x n), (j, .setInstances q y n')]).1) := by
  obtain ⟨a, g₁, t₁, hrun₁, hholds₁, hroot₁, -⟩ := h.sets hm i p x n
  have hm₁ : AllAdmissible g₁.store.HasRoom (((Operation.setInstances p x n).request i).settle m).2 :=
    Store.hasRoom_congr hroot₁ ▸ hm.after_setInstances p x n i
  obtain ⟨b, g₂, t₂, hrun₂, hholds₂, -⟩ := hholds₁.sets hm₁ j q y n'
  have hrun : (Registry.performAll (.ofSpecification σ) g
      [(i, .setInstances p x n), (j, .setInstances q y n')]).run t = (([a, b], g₂), t₂) := by
    simp only [Registry.performAll, Script.run_bind, Script.run_pure, hrun₁, hrun₂]
  refine ⟨a, b, g₂, t₂, hrun, hholds₂, fun hp hq => ?_⟩
  obtain ⟨_, _, hsettled, -⟩ := h.settles_all hm
    (show ∀ e ∈ [(i, Operation.setInstances p x n), (j, .setInstances q y n')], _ from
      List.forall_mem_cons.mpr ⟨fun _ hk => hp.room hm hk,
        List.forall_mem_singleton.mpr fun _ hk => hq.room hm hk⟩)
  exact congrArg (·.1.1) (hrun.symm.trans hsettled)

/-- **Setters of instance counts are exact patches.** In every reachable state, setting a count is
answered with the refusals in their order, and a refusal leaves every record as it was. Otherwise
the record of the application gets the count, and nothing else of it and no other record changes but
the time of the last update; from then on, the count is what is answered for the part and what its
program is loaded with. Two counts of different parts can be set in either order: the records are the
same up to the times of last updates, and so are the answers.

On disk, an application that is not stored may have a key whose files exceed the limits. To look for
it may then be an error of the store, which is answered in place of the refusal. -/
theorem instance_setters_exact (h : Reached (.ofSpecification σ) past g t) : ∃ m, g.Holds m t ∧
    (∀ now p x n, ∃ a g' t' m',
      (perform (.ofSpecification σ) g now (.setInstances p x n)).run t = ((a, g'), t') ∧
      g'.Holds m' t' ∧
      (ScalingAnswers m p x n a ∨
        ¬ g.HasRoomFor m p.application ∧ n ≠ 0 ∧ ∃ e, a = .error (.storage e)) ∧
      (a ≠ .reply .done → m' = m) ∧
      (a = .reply .done → ∃ k r s, recordIn m p.application = some (k, r) ∧
        x.Patches p.name n r.specification s ∧
        m' = m.insert k (stored (⟨s, r.location, now⟩ : ApplicationRecord)) ∧
        ∀ now', ((perform (.ofSpecification σ) g' now' (.instances p x)).run t').1.1 =
            .reply (.count n) ∧
          ((perform (.ofSpecification σ) g' now' (.loadProgram p x.kind)).run t').1.1 =
            .reply (.program ⟨p, x.kind, r.location, s⟩))) ∧
    ∀ p x n q y n' t₁ t₂ t₃ t₄, (p, x) ≠ (q, y) → ∃ a b a' b' g₁ g₂ t' t'' m₁ m₂,
      (performAll (.ofSpecification σ) g
        [(t₁, .setInstances p x n), (t₂, .setInstances q y n')]).run t = (([a, b], g₁), t') ∧
      (performAll (.ofSpecification σ) g
        [(t₃, .setInstances q y n'), (t₄, .setInstances p x n)]).run t = (([b', a'], g₂), t'') ∧
      g₁.Holds m₁ t' ∧ g₂.Holds m₂ t'' ∧ AgreeOn (fun _ => True) m₁ m₂ ∧
      (g.HasRoomFor m p.application → g.HasRoomFor m q.application → a = a' ∧ b = b') := by
  obtain ⟨m, hholds, hm⟩ := h.exists_admissible
  refine ⟨m, hholds, fun now p x n => ?_, fun p x n q y n' t₁ t₂ t₃ t₄ hne => ?_⟩
  · obtain ⟨a, g', t', hrun, hafter, hroot, ha⟩ := hholds.sets hm now p x n
    refine ⟨a, g', t', _, hrun, hafter, ?_, ?_⟩
    · exact ha.imp_left fun he => by
        rw [he]
        exact hm.scalingAnswers p x n now
    rcases hm.settle_setInstances_cases p x n now with
      ⟨e, hsettle⟩ | ⟨k, r, s, hrecord, hpatches, hsettle⟩
    · rw [hsettle] at ha ⊢
      refine ⟨fun _ => rfl, fun hdone => ?_⟩
      rcases ha with he | ⟨-, -, e, he⟩ <;> cases hdone.symm.trans he
    · rw [hsettle] at ha hafter ⊢
      have hdone : a = .reply .done := by
        rcases ha with he | ⟨hroom, -⟩
        · exact he
        · cases (recordIn_of_not_hasRoomFor hroom).symm.trans hrecord
      refine ⟨fun hrefused => absurd hdone hrefused, fun _ => ⟨k, r, s, hrecord, hpatches, rfl, ?_⟩⟩
      have hk := (recordIn_eq_some_iff.mp hrecord).1
      have hm' : AllAdmissible g'.store.HasRoom m := Store.hasRoom_congr hroot ▸ hm
      -- The patched record is what the getter and the loader find from now on.
      have hpatched := hm'.insert
        (admissible_application (hm'.place_of_recordIn hrecord hk) hk ⟨s, r.location, now⟩)
      have hnow := (recordIn_insert (m := m) hk ⟨s, r.location, now⟩).trans (if_pos rfl)
      exact hafter.answers_count hpatched hnow hpatches.count
  · obtain ⟨a₀, b₀, m₁, m₂, hfirst, hsecond, hagree⟩ :=
      settleAll_setInstances_comm hm hne n n' t₁ t₂ t₃ t₄
    obtain ⟨a, b, g₁, t', hrun₁, hholds₁, hab⟩ := hholds.sets_two hm p q x y n n' t₁ t₂
    obtain ⟨b', a', g₂, t'', hrun₂, hholds₂, hba⟩ := hholds.sets_two hm q p y x n' n t₃ t₄
    rw [hfirst] at hholds₁ hab
    rw [hsecond] at hholds₂ hba
    refine ⟨a, b, a', b', g₁, g₂, t', t'', m₁, m₂, hrun₁, hrun₂, hholds₁, hholds₂, hagree, ?_⟩
    intro hp hq
    obtain ⟨rfl, rfl⟩ : a = a₀ ∧ b = b₀ := by simpa using hab hp hq
    obtain ⟨rfl, rfl⟩ : b' = b ∧ a' = a := by simpa using hba hq hp
    exact ⟨rfl, rfl⟩

/-! ### A procedure and a service of one name -/

/-- The procedure and the runnable of the service have one name. -/
def namesakes : Specification :=
  (pricing 2).withProgram
    (.service ⟨"price", "Prices", "", .ofList [("price", ⟨"price", "Price", 1⟩)]⟩)

/-- The application is deployed with both of them. -/
def withNamesakes : List TimedOperation := [(noon, .addApplication shop namesakes ⟨"shop.jar"⟩)]

theorem recordIn_withNamesakes : ∃ k r,
    recordIn (settleAll ∅ withNamesakes).2 shop = some (k, r) ∧ r.specification = namesakes := by
  have hstored : (recordIn (settleAll ∅ withNamesakes).2 shop).any fun e =>
      decide (e.2.specification = namesakes) := by
    decide +kernel
  obtain ⟨⟨k, r⟩, hrecord, hr⟩ := (Option.any_eq_true _ _).mp hstored
  exact ⟨k, r, hrecord, of_decide_eq_true hr⟩

theorem instance_setters_exact_namesakes : ∃ past g t, Reached (.ofSpecification Unit) past g t ∧
    ∃ m, g.Holds m t ∧
      (∃ g' t' m', (perform (.ofSpecification Unit) g noon
          (.setInstances (shop.program "price") (.runnable "price") 5)).run t =
            ((.reply .done, g'), t') ∧ g'.Holds m' t' ∧
        ((perform (.ofSpecification Unit) g' noon
          (.instances (shop.program "price") (.runnable "price"))).run t').1.1 =
            .reply (.count 5)) ∧
      ∃ a b g₁ g₂ t' t'' m₁ m₂,
        (performAll (.ofSpecification Unit) g
          [(morning, .setInstances (shop.program "price") .procedure 3),
            (noon, .setInstances (shop.program "price") (.runnable "price") 4)]).run t =
              (([a, b], g₁), t') ∧
        (performAll (.ofSpecification Unit) g
          [(noon, .setInstances (shop.program "price") (.runnable "price") 4),
            (evening, .setInstances (shop.program "price") .procedure 3)]).run t =
              (([b, a], g₂), t'') ∧
        g₁.Holds m₁ t' ∧ g₂.Holds m₂ t'' ∧ AgreeOn (fun _ => True) m₁ m₂ := by
  have hreached := reached_settleAll () .empty withNamesakes (by decide +kernel)
  obtain ⟨m, hholds, hone, htwo⟩ := instance_setters_exact hreached
  have hroom : HasRoomFor (onStore (.ofMap (settleAll ∅ withNamesakes).2) ()) m shop :=
    fun _ _ _ => nofun
  refine ⟨_, _, _, hreached, m, hholds, ?_, ?_⟩
  · obtain rfl : (settleAll ∅ withNamesakes).2 = m := congrArg Memory.records hholds.store
    obtain ⟨a, g', t', m', hset, hholds', hanswers, -, hdone⟩ :=
      hone noon (shop.program "price") (.runnable "price") 5
    obtain ⟨k, r, hrecord, hr⟩ := recordIn_withNamesakes
    have hpart : (Scalable.instances? r.specification "price" (.runnable "price")).isSome := by
      rw [hr]
      decide
    obtain rfl : a = .reply .done := by
      rcases hanswers with hanswers | ⟨hnone, -⟩
      · exact hanswers.done.mpr ⟨by decide, k, r, hrecord, hpart⟩
      · exact absurd hroom hnone
    obtain ⟨_, _, _, -, -, -, hafter⟩ := hdone rfl
    exact ⟨g', t', m', hset, hholds', (hafter noon).1⟩
  · obtain ⟨a, b, a', b', g₁, g₂, t', t'', m₁, m₂, hrun₁, hrun₂, hholds₁, hholds₂, hagree, hsame⟩ :=
      htwo (shop.program "price") .procedure 3 (shop.program "price") (.runnable "price") 4
        morning noon noon evening (by decide)
    obtain ⟨rfl, rfl⟩ := hsame hroom hroom
    exact ⟨a, b, g₁, g₂, t', t'', m₁, m₂, hrun₁, hrun₂, hholds₁, hholds₂, hagree⟩

end Registry

end AppRegistry
