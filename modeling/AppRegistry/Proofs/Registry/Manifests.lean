import AppRegistry.Proofs.Archive.Manifests
import AppRegistry.Proofs.Registry.Publication
import AppRegistry.Proofs.Registry.Table

/-!
# A registry in memory that keeps manifests

An operation either lets the tree of files grow and leaves the specifications as they are, or it
publishes: the manifest of the specification that is now deployed is staged and applied. So a
registry in memory stays in step with what was asked and answered (`Registry.InStep`), and what it
answers when a program is to be loaded follows from what is deployed and from the manifest.

Main results: `Registry.InStep.perform` and `Registry.InStep.load`.
-/

namespace AppRegistry

variable {σ : Type} {past : List (Operation × Answer)} {m : OrderedMap Key Json}
  {g g' : Registry σ} {t t' : FileTree} {op : Operation} {a : Answer} {now : Instant}

/-! ## No operation panics -/

/-- Whether a loader never panics. -/
structure Loader.Calm (L : Loader σ) : Prop where
  stage : ∀ l s y t, (((L.stage l s).run y).run t).1.1 ≠ .panicked
  apply : ∀ u y t, (((L.apply u).run y).run t).1.1 ≠ .panicked
  load : ∀ l p kind s y t, (((L.load l p kind s).run y).run t).1.1 ≠ .panicked

theorem LoaderOutcome.ofExcept_ne_panicked {α : Type} (r : Except LoaderError α) :
    LoaderOutcome.ofExcept r ≠ .panicked := by
  cases r <;> nofun

namespace Registry

/-- **No operation in memory panics**, unless the loader does. -/
theorem perform_ne_panicked {L : Loader σ} {y : σ} (op : Operation) (now : Instant)
    (hL : L.Calm) (hm : AllStorable m) :
    ((perform L ⟨.ofMap m, false, y⟩ now op).run t).1.1 ≠ .panicked := by
  -- The transactions of the operations do not panic, and neither does a calm loader.
  have hself := hm.agreeOn op.footprint.reads
  rw [perform_eq_serve]
  have halike := op.alike now now
  generalize hrq : op.request now = rq at halike
  cases halike with
  | known a =>
    rintro rfl
    exact op.request_ne_panicked now hrq
  | @ask _ _ _ f _ tx _ htx =>
    have hend := (htx.runOn hself).1
    have hserve := ask_inMemory (L := L) (m := m) (b := false) (y := y) (t := t) f tx
    rw [hserve]
    generalize tx.runOn m = runs at hend
    obtain ⟨_ | _ | _, _⟩ := runs
    · simp
    · simp
    · cases hend
  | @publish target tx _ htx =>
    have hend := (htx.runOn hself).1
    rw [publish_inMemory]
    generalize tx.runOn m = runs at hend
    obtain ⟨⟨k, r⟩ | _ | _, _⟩ := runs
    · have hstage := hL.stage r.location r.specification y t
      simp only
      generalize ((L.stage r.location r.specification).run y).run t = staging at hstage
      obtain ⟨⟨u | _ | _, y₁⟩, t₁⟩ := staging
      · have happly := hL.apply u y₁ t₁
        simp only [applyCommitted_run]
        generalize ((L.apply u).run y₁).run t₁ = applied at happly
        obtain ⟨⟨_ | _ | _, _⟩, _⟩ := applied
        · simp
        · simp
        · exact absurd rfl happly
      · simp
      · exact absurd rfl hstage
    · simp
    · cases hend
  | @load p kind htx =>
    have hend := (htx.runOn hself).1
    rw [load_inMemory]
    generalize ((Application.required p.application).runOn m).1 = out at hend
    obtain r | _ | _ := out
    · simp only
      split
      · simp
      · have hload := hL.load r.location p kind r.specification y t
        generalize ((L.load r.location p kind r.specification).run y).run t = loaded at hload
        obtain ⟨⟨_ | _ | _, _⟩, _⟩ := loaded
        · simp
        · simp
        · exact absurd rfl hload
    · simp
    · cases hend

/-- A registry that keeps a map in memory is made of that map. -/
theorem Holds.eq_ofMap (h : g.Holds m t) (hroot : g.store.root? = none) :
    g = ⟨.ofMap m, false, g.loaderState⟩ := by
  obtain ⟨store, poisoned, y⟩ := g
  obtain rfl : poisoned = false := h.fresh
  cases store with
  | memory x =>
    obtain rfl : x = ⟨m, false⟩ := h.store
    rfl
  | disk d => cases hroot

end Registry

/-! ## What becomes of the files -/

namespace Manifest

theorem loader_stage_run (l : ArchiveLocation) (s : Specification) (y : σ) (t : FileTree) :
    (((loader σ).stage l s).run y).run t =
      ((((stage l s).run t).1, y), ((stage l s).run t).2) :=
  Script.run_bind _ _ _

theorem loader_apply_run (d : Draft) (y : σ) (t : FileTree) :
    (((loader σ).apply d).run y).run t =
      ((.ofExcept ((apply d).run t).1, y), ((apply d).run t).2) := by
  show ((LoaderOutcome.ofExcept <$> apply d : Script _) >>= fun a => pure (a, y)).run t = _
  rw [Script.run_bind, Script.run_map]
  rfl

theorem loader_load_run (l : ArchiveLocation) (p : ProgramId) (kind : ProgramKind)
    (s : Specification) (y : σ) (t : FileTree) :
    (((loader σ).load l p kind s).run y).run t = ((.ofExcept (load t l p kind s), y), t) :=
  Script.run_bind _ _ _

/-- The loader that keeps manifests never panics. -/
theorem loader_calm (σ : Type) : (loader σ).Calm where
  stage l s y t := by
    rw [loader_stage_run]
    exact (stage_run (s := s) rfl).1
  apply d y t h := by
    have hrun := congrArg (·.1.1) (loader_apply_run d y t)
    exact LoaderOutcome.ofExcept_ne_panicked _ (hrun.symm.trans h)
  load l p kind s y t := by
    rw [loader_load_run]
    exact LoaderOutcome.ofExcept_ne_panicked _

end Manifest

namespace Registry

/-- What becomes of the files when a record is published: its manifest is staged and applied, or the
tree grows and the operation does not get through. -/
theorem publish_files {target : String} {tx : RegistryTransaction (Key × ApplicationRecord)}
    {y : σ}
    (hrun : (serve (Manifest.loader σ) ⟨.ofMap m, false, y⟩ (.publish target tx)).run t =
      ((a, g'), t'))
    (happlied : ¬ (Manifest.loader σ).Unapplied target a) :
    (t.Grows t' ∧ ∀ r, a ≠ .reply r) ∨
      ∃ (k : Key) (r : ApplicationRecord) (m₁ : OrderedMap Key Json) (d : Manifest.Draft)
        (t₁ : FileTree), tx.runOn m = (.done (k, r), m₁) ∧
        g'.store = .ofMap (m₁.insert k (stored r)) ∧
        (Manifest.stage r.location r.specification).run t = (.staged d, t₁) ∧
        (Manifest.apply d).run t₁ = (.ok (), t') := by
  rw [publish_inMemory] at hrun
  split at hrun
  · next k r m₁ hruns =>
    rw [Manifest.loader_stage_run] at hrun
    generalize hstage : (Manifest.stage r.location r.specification).run t = staging at hrun
    obtain ⟨_ | _ | _, t₁⟩ := staging
    · next d =>
      replace hrun := (applyCommitted_run (L := Manifest.loader σ) target d).symm.trans hrun
      simp only [Manifest.loader_apply_run] at hrun
      generalize happly : (Manifest.apply d).run t₁ = applied at hrun
      obtain ⟨cause | u, t₂⟩ := applied
      · cases hrun
        -- A change that could not be applied would show in the answer.
        refine absurd (.inl ⟨cause, rfl, d, y, t₁, ?_⟩) happlied
        rw [Manifest.loader_apply_run, happly]
        rfl
      · cases hrun
        exact .inr ⟨k, r, m₁, d, t₁, hruns, rfl, hstage, happly⟩
    · cases hrun
      exact .inl ⟨(Manifest.stage_run hstage).2.1, by simp⟩
    · exact absurd rfl (Manifest.stage_run hstage).1
  · cases hrun
    exact .inl ⟨.refl t, by simp⟩
  · cases hrun
    exact .inl ⟨.refl t, by simp⟩

/-- **What becomes of the files.** An operation that leaves the specifications as they are lets the
tree grow. Any other has the manifest of the record that it leaves staged and applied. -/
theorem perform_files {y : σ}
    (hrun : (perform (Manifest.loader σ) ⟨.ofMap m, false, y⟩ now op).run t = ((a, g'), t'))
    (happlied : ∀ target, ¬ (Manifest.loader σ).Unapplied target a) :
    (t.Grows t' ∧ ∀ r, a = .reply r → op.publishes = none) ∨
      ∃ (id : ApplicationId) (k : Key) (r : ApplicationRecord) (m₁ : OrderedMap Key Json)
        (d : Manifest.Draft) (t₁ : FileTree), op.publishes = some id ∧
        Layout.application id = .ok k ∧ g'.store = .ofMap m₁ ∧ m₁.get? k = some (stored r) ∧
        (Manifest.stage r.location r.specification).run t = (.staged d, t₁) ∧
        (Manifest.apply d).run t₁ = (.ok (), t') := by
  rw [perform_eq_serve] at hrun
  generalize hrq : op.request now = rq at hrun
  cases rq with
  | known b =>
    obtain ⟨rfl, rfl, rfl⟩ := Script.of_run_pure hrun
    refine .inl ⟨.refl t, ?_⟩
    rintro r rfl
    exact op.publishes_eq_none now (by simp [hrq]) (by simp [hrq])
  | ask f tx =>
    have hnone := op.publishes_eq_none now (by simp [hrq]) (by simp [hrq])
    rw [ask_inMemory] at hrun
    refine .inl ⟨?_, fun _ _ => hnone⟩
    split at hrun <;> cases hrun <;> exact .refl _
  | load p kind =>
    have hnone := op.publishes_eq_none now (by simp [hrq]) (by simp [hrq])
    rw [load_inMemory] at hrun
    refine .inl ⟨?_, fun _ _ => hnone⟩
    split at hrun
    · split at hrun
      · cases hrun
        exact .refl _
      · rw [Manifest.loader_load_run] at hrun
        generalize Manifest.load _ _ _ _ _ = loaded at hrun
        cases loaded <;> cases hrun <;> exact .refl _
    · cases hrun
      exact .refl _
    · cases hrun
      exact .refl _
  | publish target tx =>
    obtain ⟨id, hop⟩ := Operation.publishes_of_request hrq
    rcases publish_files hrun (happlied target) with
      ⟨hgrows, ha⟩ | ⟨k, r, m₁, d, t₁, hruns, hstore, hstage, happly⟩
    · exact .inl ⟨hgrows, fun r hr => absurd hr (ha r)⟩
    · rcases op.request_of_publishes hop now with ⟨e, h⟩ | ⟨target', tx', h, hkey⟩
      · cases h.symm.trans hrq
      · cases h.symm.trans hrq
        refine .inr ⟨id, k, r, _, d, t₁, hop, hkey _ _ _ _ hruns, hstore, ?_, hstage, happly⟩
        rw [OrderedMap.get?_insert, if_pos rfl]

end Registry

/-! ## What is deployed -/

namespace Application

variable {id id' : ApplicationId} {x : Option Deployed} {d : Deployed}

/-- What is published for one application changes nothing about another. -/
theorem follow_of_publishes (hop : op.publishes = some id) (hid : id ≠ id') :
    follow id' x (op, a) = x := by
  cases a with
  | reply r =>
    cases op with
    | addApplication => exact if_neg fun h => hid ((Option.some.inj hop).symm.trans h)
    | setInstances p =>
      have hp : p.application ≠ id' := fun h => hid ((Option.some.inj hop).symm.trans h)
      simp [follow, Deployed.patchedBy, hp]
    | _ => cases hop
  | _ => exact follow_of_not_reply (by simp) op x

/-- What publishes nothing leaves of an application what was deployed, or nothing. -/
theorem follow_of_not_publishes (hop : ∀ r, a = .reply r → op.publishes = none)
    (h : follow id x (op, a) = some d) : x = some d := by
  rcases follow_eq_some_iff.mp h with ⟨r, he⟩ | ⟨d₀, hx, -, hd⟩
  · obtain ⟨rfl, rfl⟩ := Prod.mk.inj he
    cases hop r rfl
  · cases op with
    | setInstances p =>
      cases a with
      | reply r => cases hop r rfl
      | _ => exact hx.trans (congrArg some hd.symm)
    | _ => exact hx.trans (congrArg some hd.symm)

end Application

/-! ## In step -/

namespace Registry

/-- A registry in memory is in step with what was asked and answered. -/
structure InStep (past : List (Operation × Answer)) (g : Registry σ) (t : FileTree)
    (m : OrderedMap Key Json) : Prop where
  holds : g.Holds m t
  inMemory : g.store.root? = none
  tracks : Application.Tracks past m

theorem inStep_start (y : σ) (t : FileTree) : InStep [] (onStore (.memory .empty) y) t ∅ where
  holds := ⟨Store.holds_empty_memory t, fun _ _ h => by simp at h, rfl⟩
  inMemory := rfl
  tracks := Application.tracks_nil

namespace InStep

/-- Records in memory do not depend on any file. -/
theorem elsewhere (h : InStep past g t m) (t' : FileTree) : InStep past g t' m where
  holds := by
    rw [h.holds.eq_ofMap h.inMemory]
    exact ⟨rfl, h.holds.storable, rfl⟩
  inMemory := h.inMemory
  tracks := h.tracks

/-- **Every operation keeps the registry in step.** It lets the tree grow and deploys nothing, or
the manifest of what is then deployed is staged and applied. -/
theorem perform (h : InStep past g t m)
    (hrun : (Registry.perform (Manifest.loader σ) g now op).run t = ((a, g'), t'))
    (happlied : ∀ target, ¬ (Manifest.loader σ).Unapplied target a) :
    ∃ m', InStep (past ++ [(op, a)]) g' t' m' ∧
      ((t.Grows t' ∧ ∀ r, a = .reply r → op.publishes = none) ∨
        ∃ id d u t₁, op.publishes = some id ∧ Application.since id (past ++ [(op, a)]) = some d ∧
          (Manifest.stage d.location d.specification).run t = (.staged u, t₁) ∧
          (Manifest.apply u).run t₁ = (.ok (), t')) := by
  -- In memory the registry is made of its map, so its steps can be followed file by file.
  have hg := h.holds.eq_ofMap h.inMemory
  have hpanic : a ≠ .panicked := by
    have := perform_ne_panicked op now (y := g.loaderState) (t := t)
      (Manifest.loader_calm σ) h.holds.storable
    rwa [← hg, hrun] at this
  obtain ⟨m', hholds, hroot, htracks⟩ := h.tracks.serves h.holds.storable
    (h.holds.serve (fun root hr => absurd (h.inMemory.symm.trans hr) nofun) (op.alike now now)
      (perform_eq_serve (L := Manifest.loader σ) now op ▸ hrun) hpanic) happlied
  refine ⟨m', ⟨hholds, hroot.trans h.inMemory, htracks⟩, ?_⟩
  rw [hg] at hrun
  rcases perform_files hrun happlied with hgrows |
    ⟨id, k, r, m₁, u, t₁, hop, hk, hstore, hget, hstage, happly⟩
  · exact .inl hgrows
  · obtain rfl : m₁ = m' := by
      have := hholds.store
      rw [hstore] at this
      exact congrArg Memory.records this
    obtain ⟨d, time, hd, hr⟩ := htracks.since_of_record hk hget
    obtain rfl := stored_inj hr
    exact .inr ⟨id, d, u, t₁, hop, hd, hstage, happly⟩

/-! ## Questions -/

theorem specification (h : InStep past g t m) (id : ApplicationId) (now : Instant) :
    ((Registry.perform (Manifest.loader σ) g now (.specification id)).run t).1.1 =
      .reply (.specification ((Application.since id past).map (·.specification))) :=
  h.tracks.answers h.holds (fun _ _ _ hr => absurd (h.inMemory.symm.trans hr) nofun)
    (fun _ _ => rfl) rfl

theorem location (h : InStep past g t m) (id : ApplicationId) (now : Instant) :
    ((Registry.perform (Manifest.loader σ) g now (.location id)).run t).1.1 =
      .reply (.location ((Application.since id past).map (·.location))) :=
  h.tracks.answers h.holds (fun _ _ _ hr => absurd (h.inMemory.symm.trans hr) nofun)
    (fun _ _ => rfl) rfl

/-- What the registry answers to be stored is what is deployed. -/
theorem exists_since (h : InStep past g t m) {id : ApplicationId} {s : Specification}
    (hs : ((Registry.perform (Manifest.loader σ) g now (.specification id)).run t).1.1 =
      .reply (.specification (some s))) :
    ∃ d, Application.since id past = some d ∧ d.specification = s := by
  rw [h.specification id now] at hs
  simpa using hs

end InStep

/-- What the loading of a program answers, by the files and by what is deployed. -/
def loaded (t : FileTree) (p : ProgramId) (kind : ProgramKind) :
    Option Application.Deployed → Answer
  | none => .error (.applicationNotFound p.application)
  | some d =>
    if (d.specification.program? kind p.name).isNone then .error (.programNotFound p kind)
    else
      match Manifest.load t d.location p kind d.specification with
      | .error cause => .error (.loader p.text cause)
      | .ok program => .reply (.program program)

/-- **A program is loaded by what is deployed.** -/
theorem InStep.load (h : InStep past g t m) (p : ProgramId) (kind : ProgramKind) (now : Instant) :
    ((Registry.perform (Manifest.loader σ) g now (.loadProgram p kind)).run t).1.1 =
      loaded t p kind (Application.since p.application past) := by
  obtain ⟨x, hrun, hx⟩ := h.tracks.runOn_record? p.application
  rw [h.holds.eq_ofMap h.inMemory, perform_eq_serve]
  show ((serve _ _ (.load p kind)).run t).1.1 = _
  rw [load_inMemory, Application.required, Transaction.runOn_bind, hrun]
  generalize Application.since p.application past = y at hx
  cases hx with
  | none => rfl
  | @some d r hr =>
    obtain ⟨time, rfl⟩ := hr
    simp only [runOn_pure, Manifest.loader_load_run, Application.Deployed.record, loaded]
    split
    · rfl
    · cases Manifest.load t d.location p kind d.specification <;> rfl

/-- A program is loaded with the specification of the manifest. -/
theorem loaded_of_read {d : Application.Deployed} {s : Specification} {p : ProgramId}
    {kind : ProgramKind} (hread : Manifest.read t d.location = .ok (some s))
    (hd : (d.specification.program? kind p.name).isSome)
    (hs : (s.program? kind p.name).isSome) :
    loaded t p kind (some d) = .reply (.program ⟨p, kind, d.location, s⟩) := by
  have hload : Manifest.load t d.location p kind d.specification =
      .ok ⟨p, kind, d.location, s⟩ := by
    rw [Manifest.load, hread]
    show (if (s.program? kind p.name).isNone then _ else _) = _
    rw [if_neg (by simpa [Option.isSome_iff_ne_none] using hs)]
    rfl
  simp only [loaded, hload]
  rw [if_neg (by simpa [Option.isSome_iff_ne_none] using hd)]

end Registry

end AppRegistry
