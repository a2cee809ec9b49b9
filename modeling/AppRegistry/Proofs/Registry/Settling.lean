import AppRegistry.Proofs.Registry.Accounts
import AppRegistry.Proofs.Registry.Room
import AppRegistry.Proofs.Registry.Soundness

/-!
# Requests that are settled

A registry that holds a map of admissible records, in memory or on disk, serves a sound request just
as the request is settled over the map (`Request.settle`). Nothing can go wrong: there is room for
every key that the request goes to, and every record that it finds has its form.

Main results: `Registry.Holds.settles_ask` for a question, whatever loader there is, and
`Registry.Holds.settles` and `Registry.Holds.settles_all` for every request with the loader that
touches no archive.
-/

namespace AppRegistry

variable {σ α : Type} {L : Loader σ} {g : Registry σ} {m : OrderedMap Key Json} {t : FileTree}
  {P : Key → Prop} {E : RegistryError → Prop}

/-- A sound request leaves admissible records where it is settled. -/
theorem Request.Sound.settle {rq : Request} (h : rq.Sound P E) (hm : AllAdmissible P m) :
    AllAdmissible P (rq.settle m).2 := by
  cases h with
  | known => exact hm
  | @ask _ f tx htx =>
    have hafter := (htx.runOn hm).2
    simp only [Request.settle]
    generalize tx.runOn m = ran at hafter
    obtain ⟨_ | _ | _, copy⟩ := ran
    · exact hafter
    · exact hm
    · exact hm
  | @publish target tx htx =>
    obtain ⟨hend, hafter⟩ := htx.runOn hm
    simp only [Request.settle]
    generalize tx.runOn m = ran at hend hafter
    obtain ⟨⟨k, r⟩ | _ | _, copy⟩ := ran
    · exact hafter.insert hend
    · exact hm
    · exact hm
  | load =>
    simp only [Request.settle]
    split
    · split
      · exact hm
      · exact hm
    · exact hm
    · exact hm

/-! ## Applications in a map -/

section Applications
variable {id id' : ApplicationId} {k : Key} {r : ApplicationRecord}

/-- The record of an application in a map, with its key. -/
def Application.recordIn (m : OrderedMap Key Json) (id : ApplicationId) :
    Option (Key × ApplicationRecord) :=
  match Layout.application id with
  | .error _ => none
  | .ok k => ((m.get? k).bind decode?).map (k, ·)

theorem recordIn_eq_some_iff : Application.recordIn m id = some (k, r) ↔
    Layout.application id = .ok k ∧ ∃ v, m.get? k = some v ∧ decode? v = some r := by
  unfold Application.recordIn
  cases hk : Layout.application id with
  | error e => simp
  | ok l =>
    simp only [Option.map_eq_some_iff, Option.bind_eq_some_iff, Prod.mk.injEq, Except.ok.injEq]
    constructor
    · rintro ⟨r', ⟨v, hv, hr⟩, rfl, rfl⟩
      exact ⟨rfl, v, hv, hr⟩
    · rintro ⟨rfl, v, hv, hr⟩
      exact ⟨r, ⟨v, hv, hr⟩, rfl, rfl⟩

/-- A record that is put in is the one that is found. -/
theorem recordIn_insert (hk : Layout.application id = .ok k) (r : ApplicationRecord) :
    Application.recordIn (m.insert k (stored r)) id' =
      if id = id' then some (k, r) else Application.recordIn m id' := by
  unfold Application.recordIn
  by_cases hid : id = id'
  · subst hid
    rw [hk, if_pos rfl]
    simp [OrderedMap.get?_insert, decode?_stored]
  · rw [if_neg hid]
    cases hl : Layout.application id' with
    | error e => rfl
    | ok l =>
      have hkl : k ≠ l := fun he => hid (Layout.application_inj hk (he ▸ hl))
      simp only [OrderedMap.get?_insert, if_neg hkl]

/-- A record is where a transaction may go. -/
theorem AllAdmissible.place_of_recordIn (hm : AllAdmissible P m)
    (h : Application.recordIn m id = some (k, r)) {l : Key}
    (hl : Layout.application id = .ok l) : P l := by
  obtain ⟨hk, v, hv, -⟩ := recordIn_eq_some_iff.mp h
  obtain rfl : k = l := Except.ok.inj (hk.symm.trans hl)
  exact (hm k v hv).place

/-- A record that is well typed is read. -/
theorem AllAdmissible.runOn_record? (hm : AllAdmissible P m) (id : ApplicationId) :
    (Application.record? id).runOn m = (.done ((Application.recordIn m id).map (·.2)), m) := by
  unfold Application.record? Application.recordIn
  cases hk : Layout.application id with
  | error e => rfl
  | ok k =>
    simp only [runOn_fetch]
    cases hv : m.get? k with
    | none => rfl
    | some v =>
      obtain ⟨_, r, -, hr⟩ := (hm k v hv).typed.typed (Layout.holds_application hk)
      simp [hr]

theorem AllAdmissible.runOn_required (hm : AllAdmissible P m) (id : ApplicationId) :
    (Application.required id).runOn m = (match Application.recordIn m id with
      | none => .rejected (.applicationNotFound id)
      | some e => .done e.2, m) := by
  unfold Application.required
  rw [Transaction.runOn_bind, hm.runOn_record?]
  cases Application.recordIn m id <;> rfl

/-- A program is loaded with the record of its application. -/
theorem AllAdmissible.settle_load (hm : AllAdmissible P m) (p : ProgramId) (kind : ProgramKind) :
    (Request.load p kind).settle m = (match Application.recordIn m p.application with
      | none => .error (.applicationNotFound p.application)
      | some (_, r) =>
        if (r.specification.program? kind p.name).isNone then .error (.programNotFound p kind)
        else .reply (.program ⟨p, kind, r.location, r.specification⟩), m) := by
  simp only [Request.settle, hm.runOn_required]
  cases Application.recordIn m p.application with
  | none => rfl
  | some e =>
    simp only
    split <;> rfl

end Applications

theorem Store.hasRoom_congr {s s' : Store} (h : s'.root? = s.root?) : s'.HasRoom = s.HasRoom := by
  unfold Store.HasRoom
  rw [h]

namespace Registry

/-- Whether a registry serves a request as it is settled over a map. -/
def Settles (L : Loader σ) (g : Registry σ) (t : FileTree) (m : OrderedMap Key Json)
    (rq : Request) : Prop :=
  ∃ g' t', (g.serve L rq).run t = (((rq.settle m).1, g'), t') ∧ g'.Holds (rq.settle m).2 t' ∧
    g'.store.root? = g.store.root?

theorem Holds.settles_known (h : g.Holds m t) (a : Answer) : Settles L g t m (.known a) :=
  ⟨g, t, rfl, h, rfl⟩

/-- **A sound question is answered as it is settled.** -/
theorem Holds.settles_ask (h : g.Holds m t) (hm : AllAdmissible g.store.HasRoom m) {f : α → Reply}
    {tx : RegistryTransaction α} (hsound : (Request.ask f tx).Sound g.store.HasRoom E) :
    Settles L g t m (.ask f tx) := by
  have hafter := (hsound.settle hm).storable
  cases hsound with
  | ask htx =>
    have hend := (htx.runOn hm).1
    have hstays := htx.staysIn hm
    unfold Settles
    simp only [Request.settle, Registry.serve, Registry.transact, Script.run_bind,
      Script.run_pure] at hafter ⊢
    generalize hruns : tx.runOn m = ran at hend hafter
    obtain ⟨b | e | _, copy⟩ := ran
    · obtain ⟨s', t', hrun, hholds, hroot⟩ := h.store.transact_of_staysIn hruns hstays
      rw [hrun]
      exact ⟨{ g with store := s' }, t', rfl, ⟨hholds, hafter, h.fresh⟩, hroot⟩
    · rw [h.store.transact_of_rejected hruns hstays]
      exact ⟨g, t, rfl, h, rfl⟩
    · exact hend.elim

/-- An operation that leaves the loader alone is answered as it is settled. -/
theorem Holds.settles_query (h : g.Holds m t) (hm : AllAdmissible g.store.HasRoom m)
    (op : Operation) (hop : op.IsQuery) (now : Instant)
    (hroom : ∀ k, op.Addresses k → g.store.HasRoom k) : Settles L g t m (op.request now) := by
  have hsound := op.sound now hroom
  obtain ⟨β, f, q, hq⟩ := hop.exists_query now
  rw [hq] at hsound ⊢
  obtain (e | b) | tx := q
  · exact h.settles_known _
  · exact h.settles_known _
  · exact h.settles_ask hm hsound

/-- The run of an operation that leaves the loader alone. -/
theorem Holds.performs_query (h : g.Holds m t) (hm : AllAdmissible g.store.HasRoom m)
    (op : Operation) (hop : op.IsQuery) {now : Instant}
    (hroom : ∀ k, op.Addresses k → g.store.HasRoom k) {answer : Answer}
    {m' : OrderedMap Key Json} (hsettle : (op.request now).settle m = (answer, m')) :
    ∃ g' t', (perform L g now op).run t = ((answer, g'), t') ∧ g'.Holds m' t' ∧
      g'.store.root? = g.store.root? := by
  obtain ⟨g', t', hrun, hafter, hroot⟩ := h.settles_query (L := L) hm op hop now hroom
  rw [hsettle] at hrun hafter
  exact ⟨g', t', perform_eq_serve now op ▸ hrun, hafter, hroot⟩

/-- A program of an application that is not there is not loaded, whatever loader there is. -/
theorem Holds.settles_load_of_rejected (h : g.Holds m t) (hm : AllAdmissible g.store.HasRoom m)
    {p : ProgramId} {kind : ProgramKind} (hsound : (Request.load p kind).Sound g.store.HasRoom E)
    {e : RegistryError}
    (hrejected : ((Application.required p.application).runOn m).1 = .rejected e) :
    Settles L g t m (.load p kind) := by
  cases hsound with
  | load htx =>
    refine ⟨g, t, ?_, ?_, rfl⟩
    · simp only [Request.settle, Registry.serve, Registry.loadProgram, Registry.transact,
        Script.run_bind, Script.run_pure,
        h.store.transact_of_rejected (Prod.ext hrejected rfl) (htx.staysIn hm), hrejected]
    · simp only [Request.settle, hrejected]
      exact h

/-- A publication that is rejected changes nothing, whatever loader there is. Its error may be one of
the store, for the transaction may go where there is no room. -/
theorem Holds.publish_of_rejected (h : g.Holds m t) {F : Footprint} {target : String}
    {tx : RegistryTransaction (Key × ApplicationRecord)}
    (halike : (Request.publish target tx).Alike F (.publish target tx)) {e : RegistryError}
    (hrejected : (tx.runOn m).1 = .rejected e) :
    ∃ e', (g.serve L (.publish target tx)).run t = ((.error e', g), t) ∧
      (e' = e ∨ ∃ e, e' = .storage e) := by
  obtain ⟨hkeeps, hready⟩ := holds_iff.mp h
  have hends : ∃ e', (Overlay.run ⟨g.store.snapshot t, ∅⟩ tx).1 = .rejected e' ∧
      (e' = e ∨ ∃ e, e' = .storage e) := by
    cases halike with
    | publish htx =>
      rcases hkeeps.store.run htx (h.storable.agreeOn F.reads) with ⟨e, -, hout, -⟩ | ⟨hout, -⟩
      · exact ⟨_, hout, .inr ⟨e, rfl⟩⟩
      · exact ⟨e, hout.trans hrejected, .inl rfl⟩
  obtain ⟨e', hout, he'⟩ := hends
  refine ⟨e', ?_, he'⟩
  simp only [Registry.serve, Registry.publish, hready.fresh, Bool.false_eq_true, if_false,
    Script.run_bind, Store.view_run hready.store.isPoisoned]
  generalize Overlay.run ⟨g.store.snapshot t, ∅⟩ tx = run at hout
  obtain ⟨out, o⟩ := run
  obtain rfl : out = .rejected e' := hout
  rfl

section OfSpecification

/-- A sound publication is made as it is settled: the loader has nothing to do. -/
theorem Holds.settles_publish (h : g.Holds m t) (hm : AllAdmissible g.store.HasRoom m)
    {target : String} {tx : RegistryTransaction (Key × ApplicationRecord)}
    (hsound : (Request.publish target tx).Sound g.store.HasRoom E) :
    Settles (.ofSpecification σ) g t m (.publish target tx) := by
  have hafter := (hsound.settle hm).storable
  obtain ⟨-, hready⟩ := holds_iff.mp h
  cases hsound with
  | publish htx =>
    have hend := (htx.runOn hm).1
    have hstays := htx.staysIn hm
    obtain ⟨hout, hcopy⟩ := h.store.sees.run hstays
    have hstaged := h.store.sees.run_staysIn hstays Changes.staysIn_empty
    unfold Settles
    simp only [Request.settle] at hafter ⊢
    simp only [Registry.serve, Registry.publish, hready.fresh, Bool.false_eq_true, if_false,
      Script.run_bind, Store.view_run hready.store.isPoisoned]
    generalize Overlay.run ⟨g.store.snapshot t, ∅⟩ tx = run at hout hcopy hstaged
    generalize tx.runOn m = ran at hend hout hcopy hafter
    obtain ⟨out, o⟩ := run
    obtain ⟨out', copy⟩ := ran
    obtain rfl : out = out' := hout
    obtain rfl : _ = copy := hcopy.copy_eq
    obtain ⟨k, r⟩ | e | _ := out
    · have hstaged' := hstaged.insert (v := some (stored r)) hend.place fun j hj =>
        Option.some.inj hj ▸ hend.storable
      obtain ⟨s', t', hcommit, hholds, hroot⟩ := h.store.commit hstaged'
      have hcommit : (g.store.commit (o.stage k (some (encode r).sorted)).staged).run t =
          ((.ok (), s'), t') := hcommit
      rw [Changes.applyAll_insert] at hholds
      refine ⟨{ g with store := s' }, t', ?_, ⟨hholds, hafter, h.fresh⟩, hroot⟩
      simp only [Loader.ofSpecification, Registry.withLoader, StateT.run_pure, pure_bind,
        Registry.commitAndApply, Script.run_bind, hcommit]
      rfl
    · exact ⟨g, t, rfl, h, rfl⟩
    · exact hend.elim

theorem Holds.settles_load (h : g.Holds m t) (hm : AllAdmissible g.store.HasRoom m)
    {p : ProgramId} {kind : ProgramKind} (hsound : (Request.load p kind).Sound g.store.HasRoom E) :
    Settles (.ofSpecification σ) g t m (.load p kind) := by
  have hsound' := hsound
  cases hsound with
  | load htx =>
    have hend := (htx.runOn hm).1
    have hsame := runOn_required p.application m
    cases hout : ((Application.required p.application).runOn m).1 with
    | panicked =>
      rw [hout] at hend
      exact hend.elim
    | rejected e => exact h.settles_load_of_rejected hm hsound' hout
    | done r =>
      obtain ⟨s', t', hrun, hholds, hroot⟩ :=
        h.store.transact_of_staysIn (Prod.ext hout hsame) (htx.staysIn hm)
      unfold Settles
      simp only [Request.settle, hout, Registry.serve, Registry.loadProgram, Registry.transact,
        Script.run_bind, Script.run_pure, hrun]
      split
      · exact ⟨{ g with store := s' }, t', rfl, ⟨hholds, h.storable, h.fresh⟩, hroot⟩
      · exact ⟨{ g with store := s' }, t', rfl, ⟨hholds, h.storable, h.fresh⟩, hroot⟩

/-- **A sound request is served as it is settled.** -/
theorem Holds.settles (h : g.Holds m t) (hm : AllAdmissible g.store.HasRoom m) {rq : Request}
    (hsound : rq.Sound g.store.HasRoom E) : Settles (.ofSpecification σ) g t m rq := by
  cases rq with
  | known a => exact h.settles_known a
  | ask f tx => exact h.settles_ask hm hsound
  | publish target tx => exact h.settles_publish hm hsound
  | load p kind => exact h.settles_load hm hsound

/-- **Operations are performed as they are settled, one after another.** -/
theorem Holds.settles_all (h : g.Holds m t) (hm : AllAdmissible g.store.HasRoom m)
    {ops : List TimedOperation}
    (hroom : ∀ e ∈ ops, ∀ k, e.2.Addresses k → g.store.HasRoom k) :
    ∃ g' t', (Registry.performAll (.ofSpecification σ) g ops).run t =
        (((settleAll m ops).1, g'), t') ∧ g'.Holds (settleAll m ops).2 t' ∧
      g'.store.root? = g.store.root? := by
  induction ops generalizing g m t with
  | nil => exact ⟨g, t, rfl, h, rfl⟩
  | cons e ops ih =>
    obtain ⟨now, op⟩ := e
    have hsound := op.sound now (hroom (now, op) List.mem_cons_self)
    obtain ⟨g₁, t₁, hrun₁, hholds₁, hroot₁⟩ := h.settles hm hsound
    have hsame := Store.hasRoom_congr hroot₁
    obtain ⟨g', t', hrun, hholds, hroot⟩ := ih hholds₁ (hsame ▸ hsound.settle hm)
      fun e he => hsame ▸ hroom e (List.mem_cons_of_mem _ he)
    refine ⟨g', t', ?_, hholds, hroot.trans hroot₁⟩
    simp only [Registry.performAll, perform_eq_serve, Script.run_bind, Script.run_pure, hrun₁, hrun,
      settleAll]

end OfSpecification

/-- In a reachable state there is room for every record. -/
theorem Reached.allAdmissible {past : List (Operation × Answer)} (h : Reached L past g t)
    (hholds : g.Holds m t) (hm : AllAdmissible (fun _ => True) m) :
    AllAdmissible g.store.HasRoom m := fun k v hv =>
  ⟨(h.hasRoom (holds_iff.mp hholds).1.store).1 k v hv, (hm k v hv).typed, (hm k v hv).storable⟩

/-- **In every reachable state the registry holds a map of admissible records.** -/
theorem Reached.exists_admissible {past : List (Operation × Answer)} (h : Reached L past g t) :
    ∃ m, g.Holds m t ∧ AllAdmissible g.store.HasRoom m := by
  obtain ⟨m, hholds, hm⟩ := h.exists_wellTyped
  exact ⟨m, hholds, h.allAdmissible hholds hm⟩

/-- One operation in a reachable state leads from a map of admissible records to another, as its
request goes over the map. -/
theorem Reached.exists_gives {past : List (Operation × Answer)} (h : Reached L past g t)
    (hholds : g.Holds m t) (hm : AllAdmissible g.store.HasRoom m) {now : Instant} {op : Operation}
    {a : Answer} {g' : Registry σ} {t' : FileTree}
    (hrun : (Registry.perform L g now op).run t = ((a, g'), t')) (ha : a ≠ .panicked) :
    ∃ m', g'.Holds m' t' ∧ AllAdmissible g'.store.HasRoom m' ∧
      ((op.request now).Gives m a m' ∨ m' = m ∧ ∃ e, a = .error (.storage e)) := by
  have hspares := (h.hasRoom (holds_iff.mp hholds).1.store).2
  have hrun' := hrun
  rw [perform_eq_serve] at hrun'
  obtain ⟨m', hafter, -, -, hends⟩ := hholds.serve hspares (op.alike now now) hrun' ha
  have hroom := ((h.perform hrun ha).hasRoom (holds_iff.mp hafter).1.store).1
  have htyped : AllAdmissible (fun _ => True) m := fun k v hv =>
    ⟨trivial, (hm k v hv).typed, (hm k v hv).storable⟩
  have htyped' : AllAdmissible (fun _ => True) m' := by
    rcases hends with hgives | ⟨rfl, -⟩
    · exact (op.sound now fun _ _ => trivial).gives htyped hgives
    · exact htyped
  refine ⟨m', hafter, fun k v hv => ?_, hends.imp_right fun ⟨hsame, he, _⟩ => ⟨hsame, he⟩⟩
  exact ⟨hroom k v hv, (htyped' k v hv).typed, (htyped' k v hv).storable⟩

end Registry

end AppRegistry
