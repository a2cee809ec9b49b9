import AppRegistry.Proofs.Registry.Manifests

/-!
# Manifests follow the stored specifications

A registry in memory that keeps manifests has two copies of each specification, its record and its
manifest. They agree as long as every staged manifest can be moved into place, no one else changes
what the manifests say, and no two applications share a manifest (`Registry.Undisturbed`).

Main results: `Registry.manifest_fidelity`, and `Registry.load_after_publication`, by which
applications with manifests of their own do not interfere. Applications with one archive do
(`Registry.shared_archive_interferes`).
-/

namespace AppRegistry

variable {σ : Type} {past : List (Operation × Answer)} {m : OrderedMap Key Json}
  {g g' : Registry σ} {t t' : FileTree} {op : Operation} {a : Answer} {now : Instant}

/-! ## Undisturbed runs -/

/-- Whether the manifests of different applications have different places. -/
def Manifest.Apart (past : List (Operation × Answer)) (t : FileTree) : Prop :=
  ∀ id id' d d' p, id ≠ id' → Application.since id past = some d →
    Application.since id' past = some d' → place? t d.location = some p →
    place? t d'.location ≠ some p

namespace Registry

/-- The runs of a registry in memory, from an empty store and any files, in which every staged
manifest was applied, different applications have kept manifests of their own, and all else that
happened to the files has left the manifests of what is deployed as they read. -/
inductive Undisturbed : List (Operation × Answer) → Registry σ → FileTree → Prop
  | start (y : σ) (t : FileTree) : Undisturbed [] (onStore (.memory .empty) y) t
  | perform {past : List (Operation × Answer)} {g g' : Registry σ} {t t' : FileTree}
      {now : Instant} {op : Operation} {a : Answer} (h : Undisturbed past g t)
      (hrun : (perform (Manifest.loader σ) g now op).run t = ((a, g'), t'))
      (happlied : ∀ target, ¬ (Manifest.loader σ).Unapplied target a)
      (hapart : Manifest.Apart (past ++ [(op, a)]) t') : Undisturbed (past ++ [(op, a)]) g' t'
  | elsewhere {past : List (Operation × Answer)} {g : Registry σ} {t t' : FileTree}
      (h : Undisturbed past g t)
      (hsame : ∀ id d, Application.since id past = some d →
        Manifest.read t' d.location = Manifest.read t d.location) : Undisturbed past g t'

/-- A registry in memory is in step with what was asked and answered, and the manifests with it. -/
structure Faithful (past : List (Operation × Answer)) (g : Registry σ) (t : FileTree)
    (m : OrderedMap Key Json) : Prop extends InStep past g t m where
  manifests : ∀ id d, Application.since id past = some d →
    Manifest.read t d.location = .ok (some d.specification)

theorem faithful_start (y : σ) (t : FileTree) :
    Faithful [] (onStore (.memory .empty) y) t ∅ where
  toInStep := inStep_start y t
  manifests _ _ h := by simp [Application.since] at h

/-- What leaves the manifests as they read keeps them in step. -/
theorem Faithful.elsewhere (h : Faithful past g t m)
    (hsame : ∀ id d, Application.since id past = some d →
      Manifest.read t' d.location = Manifest.read t d.location) : Faithful past g t' m where
  toInStep := h.toInStep.elsewhere t'
  manifests id d hd := (hsame id d hd).trans (h.manifests id d hd)

/-- **Every operation keeps the manifests in step**, if the manifests of different applications are
still apart after it. -/
theorem Faithful.perform (h : Faithful past g t m)
    (hrun : (perform (Manifest.loader σ) g now op).run t = ((a, g'), t'))
    (happlied : ∀ target, ¬ (Manifest.loader σ).Unapplied target a)
    (hapart : Manifest.Apart (past ++ [(op, a)]) t') :
    ∃ m', Faithful (past ++ [(op, a)]) g' t' m' := by
  obtain ⟨m', hstep, hfiles⟩ := h.toInStep.perform hrun happlied
  refine ⟨m', hstep, ?_⟩
  rcases hfiles with ⟨hgrows, hop⟩ | ⟨id, d, u, t₁, hop, hd, hstage, happly⟩
  · intro id d hd
    rw [Application.since_concat] at hd
    exact Manifest.read_of_grows hgrows
      (h.manifests id d (Application.follow_of_not_publishes hop hd))
  · obtain ⟨hread, hothers⟩ := Manifest.read_of_applied hstage happly
    intro id' d' hd'
    by_cases hid : id = id'
    · subst hid
      obtain rfl := Option.some.inj (hd.symm.trans hd')
      exact hread
    · have hold : Application.since id' past = some d' := by
        rwa [Application.since_concat, Application.follow_of_publishes hop hid] at hd'
      exact hothers _ _ (fun p hp => hapart id id' _ _ p hid hd hd' hp) (h.manifests id' d' hold)

/-- **In every undisturbed run the manifests are in step.** -/
theorem Undisturbed.exists_faithful (h : Undisturbed past g t) : ∃ m, Faithful past g t m := by
  induction h with
  | start y t => exact ⟨∅, faithful_start y t⟩
  | perform _ hrun happlied hapart ih =>
    obtain ⟨m, hm⟩ := ih
    exact hm.perform hrun happlied hapart
  | elsewhere _ hsame ih =>
    obtain ⟨m, hm⟩ := ih
    exact ⟨m, hm.elsewhere hsame⟩

/-! ## Manifests are faithful -/

/-- What the loading of a program answers where the manifests are in step. -/
theorem Faithful.loaded (h : Faithful past g t m) {p : ProgramId} {d : Application.Deployed}
    (hd : Application.since p.application past = some d) (kind : ProgramKind) :
    Registry.loaded t p kind (Application.since p.application past) =
      if (d.specification.program? kind p.name).isSome then
        .reply (.program ⟨p, kind, d.location, d.specification⟩)
      else .error (.programNotFound p kind) := by
  rw [hd]
  split
  · next hdeclared => exact loaded_of_read (h.manifests _ d hd) hdeclared hdeclared
  · next hdeclared => exact if_pos (by simpa using hdeclared)

/-- **Manifests are faithful.** In every undisturbed run the manifest of an application reads as the
specification that the registry answers, at the location that it answers. A program of the
application is loaded exactly if this specification declares it, and then with this specification
and location. -/
theorem manifest_fidelity (h : Undisturbed past g t) (id : ApplicationId) (now : Instant)
    {s : Specification}
    (hs : ((perform (Manifest.loader σ) g now (.specification id)).run t).1.1 =
      .reply (.specification (some s))) :
    ∃ l, (∀ now, ((perform (Manifest.loader σ) g now (.location id)).run t).1.1 =
        .reply (.location (some l))) ∧
      Manifest.read t l = .ok (some s) ∧
      ∀ name kind now,
        ((perform (Manifest.loader σ) g now (.loadProgram (id.program name) kind)).run t).1.1 =
          if (s.program? kind name).isSome then .reply (.program ⟨id.program name, kind, l, s⟩)
          else .error (.programNotFound (id.program name) kind) := by
  obtain ⟨m, hm⟩ := h.exists_faithful
  obtain ⟨d, hd, rfl⟩ := hm.exists_since hs
  refine ⟨d.location, fun now => ?_, hm.manifests id d hd, fun name kind now => ?_⟩
  · rw [hm.location id now, hd]
    rfl
  · exact (hm.load (id.program name) kind now).trans (hm.loaded hd kind)

/-! ### A procedure that is scaled, with its manifest -/

/-- An operation that gets through goes on with an undisturbed run. -/
theorem Undisturbed.reply (h : Undisturbed past g t) (now : Instant) (op : Operation) {r : Reply}
    (hanswer : ((Registry.perform (Manifest.loader σ) g now op).run t).1.1 = .reply r)
    (hapart : Manifest.Apart (past ++ [(op, .reply r)])
      ((Registry.perform (Manifest.loader σ) g now op).run t).2) :
    Undisturbed (past ++ [(op, .reply r)])
      ((Registry.perform (Manifest.loader σ) g now op).run t).1.2
      ((Registry.perform (Manifest.loader σ) g now op).run t).2 := by
  have hrun : (Registry.perform (Manifest.loader σ) g now op).run t =
      ((.reply r, ((Registry.perform (Manifest.loader σ) g now op).run t).1.2),
        ((Registry.perform (Manifest.loader σ) g now op).run t).2) := by
    rw [← hanswer]
  exact .perform h hrun (Loader.not_unapplied_reply r) hapart

/-- One application shares its manifest with no other. -/
theorem apart_of_unique (id : ApplicationId)
    (h : ∀ id', id' ≠ id → Application.since id' past = none) : Manifest.Apart past t := by
  intro i i' d d' p hne hd hd'
  have hi : ∀ {j : ApplicationId} {e}, Application.since j past = some e → j = id := fun he =>
    by_contra fun hj => by cases (h _ hj).symm.trans he
  exact absurd ((hi hd).trans (hi hd').symm) hne

/-- A registry in memory that keeps manifests, after the deployment of an application. -/
def withShop : (Answer × Registry Unit) × FileTree :=
  (perform (Manifest.loader Unit) (onStore (.memory .empty) ()) noon
    (.addApplication shop (pricing 2) ⟨"shop.jar"⟩)).run .empty

theorem undisturbed_withShop : Undisturbed
    [(.addApplication shop (pricing 2) ⟨"shop.jar"⟩, .reply .done)] withShop.1.2 withShop.2 :=
  (Undisturbed.start () .empty).reply noon _ (by decide +kernel)
    (apart_of_unique shop fun id' hid => by
      simp [Application.since, Application.follow, hid.symm])

theorem manifest_fidelity_scaled : ∃ (g : Registry Unit) (t : FileTree),
    Undisturbed (history scaled [.reply .done, .reply .done]) g t ∧
      Manifest.read t ⟨"shop.jar"⟩ = .ok (some (pricing 5)) ∧ ∀ now,
        ((perform (Manifest.loader Unit) g now (.loadProgram (shop.program "price") .procedure)).run
            t).1.1 =
          .reply (.program ⟨shop.program "price", .procedure, ⟨"shop.jar"⟩, pricing 5⟩) := by
  have hscaled := undisturbed_withShop.reply noon
    (.setInstances (shop.program "price") .procedure 5) (r := .done) (by decide +kernel)
    (apart_of_unique shop fun id' hid => by
      simp [Application.since, Application.follow, Application.Deployed.patchedBy, hid.symm])
  obtain ⟨l, hlocation, hread, hload⟩ := manifest_fidelity hscaled shop noon (s := pricing 5)
    (by decide +kernel)
  have hl := (hlocation noon).symm.trans
    (show _ = Answer.reply (.location (some ⟨"shop.jar"⟩)) by decide +kernel)
  obtain rfl : l = ⟨"shop.jar"⟩ := by simpa using hl
  exact ⟨_, _, hscaled, hread, fun now => hload "price" .procedure now⟩

/-! ## Applications with manifests of their own -/

/-- **Applications with manifests of their own do not interfere.** A publication for one application
that gets through in an undisturbed run, and after which the manifests are still apart, changes
nothing about the programs of another: they are loaded as before, with the specification and the
location that the registry answers. -/
theorem load_after_publication (h : Undisturbed past g t) (id : ApplicationId)
    {id' : ApplicationId} {r : Reply}
    (hop : op.publishes = some id') (hid : id' ≠ id)
    (hrun : (perform (Manifest.loader σ) g now op).run t = ((.reply r, g'), t'))
    (hapart : Manifest.Apart (past ++ [(op, .reply r)]) t') (name : String) (kind : ProgramKind)
    (now₁ now₂ : Instant) :
    ((perform (Manifest.loader σ) g' now₂ (.loadProgram (id.program name) kind)).run t').1.1 =
        ((perform (Manifest.loader σ) g now₁ (.loadProgram (id.program name) kind)).run t).1.1 ∧
      ∀ s, ((perform (Manifest.loader σ) g now₁ (.specification id)).run t).1.1 =
          .reply (.specification (some s)) → (s.program? kind name).isSome →
        ∃ l, ((perform (Manifest.loader σ) g now₁ (.location id)).run t).1.1 =
            .reply (.location (some l)) ∧
          ((perform (Manifest.loader σ) g now₁ (.loadProgram (id.program name) kind)).run t).1.1 =
            .reply (.program ⟨id.program name, kind, l, s⟩) := by
  obtain ⟨m, hm⟩ := h.exists_faithful
  obtain ⟨m', hm'⟩ := hm.perform hrun (Loader.not_unapplied_reply r) hapart
  have hsame : Application.since id (past ++ [(op, .reply r)]) = Application.since id past := by
    rw [Application.since_concat, Application.follow_of_publishes hop hid]
  rw [hm.load (id.program name) kind now₁, hm'.load (id.program name) kind now₂]
  refine ⟨?_, fun s hs hdeclared => ?_⟩
  · cases hd : Application.since id past with
    | none =>
      show Registry.loaded _ _ _ (Application.since id _) =
        Registry.loaded _ _ _ (Application.since id _)
      rw [hsame, hd]
      rfl
    | some d => exact (hm'.loaded (hsame.trans hd) kind).trans (hm.loaded hd kind).symm
  · obtain ⟨d, hd, rfl⟩ := hm.exists_since hs
    refine ⟨d.location, ?_, (hm.loaded hd kind).trans (if_pos hdeclared)⟩
    rw [hm.location id now₁, hd]
    rfl

/-- Two deployed applications are apart if their manifests are to have different places. -/
theorem apart_of_places {id id' : ApplicationId} {s s' : Specification} {l l' : ArchiveLocation}
    (h : Manifest.place? t l ≠ Manifest.place? t l') : Manifest.Apart
      ([(.addApplication id s l, .reply .done)] ++ [(.addApplication id' s' l', .reply .done)])
      t := by
  have hcases : ∀ {i : ApplicationId} {d}, Application.since i
      ([(.addApplication id s l, .reply .done)] ++ [(.addApplication id' s' l', .reply .done)]) =
        some d → (i = id ∧ d.location = l) ∨ (i = id' ∧ d.location = l') := by
    intro i d hd
    simp only [Application.since, List.cons_append, List.nil_append, List.foldl_cons,
      List.foldl_nil, Application.follow] at hd
    split at hd
    · next hi =>
      obtain rfl := Option.some.inj hd
      exact .inr ⟨hi.symm, rfl⟩
    · split at hd
      · next hi =>
        obtain rfl := Option.some.inj hd
        exact .inl ⟨hi.symm, rfl⟩
      · cases hd
  intro i i' d d' p hne hd hd' hp hp'
  rcases hcases hd with ⟨hi, hl⟩ | ⟨hi, hl⟩ <;> rcases hcases hd' with ⟨hi', hl'⟩ | ⟨hi', hl'⟩
  · exact hne (hi.trans hi'.symm)
  · exact h ((hl ▸ hp).trans (hl' ▸ hp').symm)
  · exact h ((hl' ▸ hp').trans (hl ▸ hp).symm)
  · exact hne (hi.trans hi'.symm)

/-- An application of another account. -/
def bakery : ApplicationId := ⟨⟨"beta"⟩, "bakery"⟩

/-- The registry of `withShop` after the deployment of another application. -/
def withBakery (location : ArchiveLocation) : (Answer × Registry Unit) × FileTree :=
  (perform (Manifest.loader Unit) withShop.1.2 noon
    (.addApplication bakery (pricing 7) location)).run withShop.2

theorem withBakery_eq {location : ArchiveLocation} {a : Answer}
    (h : (withBakery location).1.1 = a) : (perform (Manifest.loader Unit) withShop.1.2 noon
      (.addApplication bakery (pricing 7) location)).run withShop.2 =
        ((a, (withBakery location).1.2), (withBakery location).2) := by
  show withBakery location = _
  generalize withBakery location = x at h
  obtain ⟨⟨_, g⟩, t⟩ := x
  exact congrArg (fun a => ((a, g), t)) h

theorem load_after_publication_bakery :
    (withBakery ⟨"bakery.jar"⟩).1.1 = .reply .done ∧
    ∃ l, ((perform (Manifest.loader Unit) (withBakery ⟨"bakery.jar"⟩).1.2 noon
      (.loadProgram (shop.program "price") .procedure)).run (withBakery ⟨"bakery.jar"⟩).2).1.1 =
        .reply (.program ⟨shop.program "price", .procedure, l, pricing 2⟩) := by
  have hdone : (withBakery ⟨"bakery.jar"⟩).1.1 = .reply .done := by decide +kernel
  have hplaces : Manifest.place? (withBakery ⟨"bakery.jar"⟩).2 ⟨"shop.jar"⟩ ≠
      Manifest.place? (withBakery ⟨"bakery.jar"⟩).2 ⟨"bakery.jar"⟩ := by decide +kernel
  obtain ⟨hsame, hloads⟩ := load_after_publication undisturbed_withShop shop rfl (by decide)
    (withBakery_eq hdone) (apart_of_places hplaces) "price" .procedure noon noon
  obtain ⟨l, -, hl⟩ := hloads (pricing 2) (by decide +kernel) (by decide)
  exact ⟨hdone, l, hsame.trans hl⟩

/-- **Applications with one archive interfere.** Once another application has been deployed from the
same archive, a program is loaded with the instance count of the other application, not with the one
that is stored. -/
theorem shared_archive_interferes :
    (withBakery ⟨"shop.jar"⟩).1.1 = .reply .done ∧
    ((perform (Manifest.loader Unit) withShop.1.2 noon
      (.loadProgram (shop.program "price") .procedure)).run withShop.2).1.1 =
        .reply (.program ⟨shop.program "price", .procedure, ⟨"shop.jar"⟩, pricing 2⟩) ∧
    ((perform (Manifest.loader Unit) (withBakery ⟨"shop.jar"⟩).1.2 noon
      (.loadProgram (shop.program "price") .procedure)).run (withBakery ⟨"shop.jar"⟩).2).1.1 =
        .reply (.program ⟨shop.program "price", .procedure, ⟨"shop.jar"⟩, pricing 7⟩) ∧
    ((perform (Manifest.loader Unit) (withBakery ⟨"shop.jar"⟩).1.2 noon
      (.specification shop)).run (withBakery ⟨"shop.jar"⟩).2).1.1 =
        .reply (.specification (some (pricing 2))) := by
  have hdone : (withBakery ⟨"shop.jar"⟩).1.1 = .reply .done := by decide +kernel
  obtain ⟨m, hm⟩ := undisturbed_withShop.exists_faithful
  obtain ⟨m', hm', hfiles⟩ :=
    hm.toInStep.perform (withBakery_eq hdone) (Loader.not_unapplied_reply _)
  have hread : Manifest.read (withBakery ⟨"shop.jar"⟩).2 ⟨"shop.jar"⟩ = .ok (some (pricing 7)) := by
    rcases hfiles with ⟨-, hnone⟩ | ⟨id, d, u, t₁, hop, hd, hstage, happly⟩
    · cases hnone _ rfl
    · cases hop
      cases hd
      exact (Manifest.read_of_applied hstage happly).1
  refine ⟨hdone, (hm.load _ _ _).trans ?_, (hm'.load _ _ _).trans ?_, hm'.specification _ _⟩
  · exact (hm.loaded rfl .procedure).trans (if_pos (by decide))
  · exact loaded_of_read hread (by decide) (by decide)

end Registry

end AppRegistry
