import AppRegistry.Proofs.Registry.Sequences

/-!
# Stored records have room

A record that was written once can be reached for good. On disk the files of a key may be too long
to stand anywhere, but then no commit has written a record there. So in every reachable state the
store has room for each key with a record (`Registry.Reached.hasRoom`).

The invariant is `Disk.Roomy`, one of the files alone. `Script.Maintains` carries it through all
that an operation does to them: commits, and the steps of a loader that leaves the store alone.
-/

namespace AppRegistry

variable {α β σ : Type} {root : Path} {t t' : FileTree} {m : OrderedMap Key Json} {k : Key}

/-! ## The files -/

namespace Disk

/-- A store at rest in which the files of every key with a record are within the limits. -/
structure Roomy (root : Path) (t : FileTree) : Prop where
  isDirectory : t.get? root = some .directory
  atRest : AtRest root (contents root t)
  fits : ∀ k : Key, IsFile (contents root t k.components recordName) → Fits root k

/-- What has a record after a commit had one before, or the commit has written it. -/
theorem isFile_of_committed {G : Contents} {L : List (Key × Option Json)}
    (hL : (L.map (·.1)).Nodup) (h : IsFile (committed root G L k.components recordName)) :
    IsFile (G k.components recordName) ∨ ∃ j, (k, some j) ∈ L := by
  by_cases hmem : ∃ v, (k, v) ∈ L
  · obtain ⟨v, hmem⟩ := hmem
    rw [committed_of_mem hL hmem] at h
    cases v with
    | some j => exact .inr ⟨j, hmem⟩
    | none =>
      rw [changed] at h
      split at h
      · exact absurd h not_isFile_none
      · exact .inl h
  · refine .inl ?_
    rwa [committed_of_not_mem] at h
    intro l v hl hkl
    exact hmem ⟨v, Key.ext hkl ▸ hl⟩

/-- A store whose records are those of `G`, each with room. -/
theorem Roomy.of_rests {G : Contents} (hr : Stored root (Rests root G) t)
    (h : ∀ k : Key, IsFile (G k.components recordName) → Fits root k) : Roomy root t where
  isDirectory := hr.1
  atRest := hr.2.2
  fits k hk := by
    rw [hr.2.1.kept k.components recordName (by decide)] at hk
    exact h k hk

/-- **A commit keeps room for every record**, whether or not it succeeds. -/
theorem Roomy.commit (h : Roomy root t) (staged : Changes) :
    Roomy root ((Disk.commit root staged).run t).2 := by
  cases hr : ((Disk.commit root staged).run t).1 with
  | error e => exact .of_rests (commit_run_error h.isDirectory h.atRest hr) h.fits
  | ok u =>
    obtain ⟨-, hrests, hlimits⟩ := commit_run h.isDirectory h.atRest hr
    refine .of_rests hrests fun k hk => ?_
    rcases isFile_of_committed (nodup_keys staged) hk with hk | ⟨j, hj⟩
    · exact h.fits k hk
    · exact hlimits k j hj

theorem Roomy.congr (h : Roomy root t) (hsame : ∀ q, root <+: q → t'.get? q = t.get? q) :
    Roomy root t' := by
  have hcontents := contents_congr hsame
  exact ⟨(hsame root List.prefix_rfl).trans h.isDirectory, hcontents ▸ h.atRest, hcontents ▸ h.fits⟩

/-- There is nothing in an empty store that could want room. -/
theorem Mirrors.roomy_of_empty (h : Mirrors root ∅ t) : Roomy root t where
  isDirectory := h.tidy.1
  atRest := h.atRest
  fits k hk := by
    obtain ⟨b, hb⟩ := hk
    obtain ⟨k', v, j, -, hv, -⟩ := h.holds.sound _ b hb
    simp at hv

end Disk

/-! ## Scripts -/

/-- Whether a script keeps an invariant of the file tree and ends with something in `R`. -/
def Script.Maintains (I : FileTree → Prop) (R : α → Prop) (x : Script α) : Prop :=
  ∀ t, I t → I (x.run t).2 ∧ R (x.run t).1

namespace Script.Maintains

variable {I : FileTree → Prop} {R : α → Prop} {S : β → Prop}

theorem pure {a : α} (h : R a) : Script.Maintains I R (Pure.pure a) := fun _ ht => ⟨ht, h⟩

theorem bind {x : Script α} {f : α → Script β} (h : x.Maintains I R)
    (hf : ∀ a, R a → (f a).Maintains I S) : (x >>= f).Maintains I S := by
  intro t ht
  obtain ⟨hafter, hR⟩ := h t ht
  rw [Script.run_bind]
  exact hf _ hR _ hafter

theorem see (f : FileTree → α) : (Script.see f).Maintains I fun _ => True :=
  fun _ ht => ⟨ht, trivial⟩

end Script.Maintains

section Stores
variable {s : Store} {ε : Type}

theorem maintains_commit (hs : s.root? = some root) (staged : Changes) :
    (s.commit staged).Maintains (Disk.Roomy root) fun x => x.2.root? = some root := by
  cases s with
  | memory x => cases hs
  | disk d =>
    obtain rfl : d.root = root := Option.some.inj hs
    have hcommit : (Disk.commit d.root staged).Maintains (Disk.Roomy d.root) fun _ => True :=
      fun _ ht => ⟨ht.commit staged, trivial⟩
    exact hcommit.bind fun _ _ => .pure rfl

theorem maintains_transact (hs : s.root? = some root) (tx : Transaction ε α) :
    (s.transact tx).Maintains (Disk.Roomy root) fun x => x.2.root? = some root := by
  cases s with
  | memory x => cases hs
  | disk d =>
    obtain rfl : d.root = root := Option.some.inj hs
    have hcommit : ∀ staged, (Disk.commit d.root staged).Maintains (Disk.Roomy d.root)
        fun _ => True := fun staged _ ht => ⟨ht.commit staged, trivial⟩
    refine Script.Maintains.bind (R := fun x => x.2.root = d.root) ?_ fun x hx =>
      .pure (congrArg some hx)
    unfold Disk.transact
    split
    · exact .pure rfl
    · refine (Script.Maintains.see _).bind fun ran _ => ?_
      obtain ⟨_ | _ | _, o⟩ := ran
      · refine (hcommit o.staged).bind fun r _ => ?_
        cases r with
        | error e => exact .pure rfl
        | ok u => exact .pure rfl
      · exact .pure rfl
      · exact .pure rfl

end Stores

/-! ## Operations -/

namespace Registry

variable {L : Loader σ} {g : Registry σ} {past : List (Operation × Answer)}

/-- Whether what a script ends with comes with a registry on the same directory. -/
def StaysAt (root : Path) (x : α × Registry σ) : Prop := x.2.store.root? = some root

theorem maintains_withLoader (hg : g.store.root? = some root) {step : StateT σ Script α}
    (hstep : (step.run g.loaderState).Spares root) :
    (g.withLoader step).Maintains (Disk.Roomy root) (StaysAt root) := by
  have hspares : (step.run g.loaderState).Maintains (Disk.Roomy root) fun _ => True :=
    fun t ht => ⟨ht.congr (hstep t), trivial⟩
  exact hspares.bind fun _ _ => .pure hg

theorem maintains_transactOn {ε : Type} (hg : g.store.root? = some root) (tx : Transaction ε α) :
    (g.transact tx).Maintains (Disk.Roomy root) (StaysAt root) := by
  refine (maintains_transact hg tx).bind fun x hx => ?_
  obtain ⟨ending, s⟩ := x
  exact .pure hx

theorem maintains_commitAndApply (hg : g.store.root? = some root) (hL : L.Spares root)
    (target : String) (staged : Changes) (update : L.Update) :
    (commitAndApply L g target staged update).Maintains (Disk.Roomy root) (StaysAt root) := by
  refine (maintains_commit hg staged).bind fun x hx => ?_
  obtain ⟨r, s⟩ := x
  cases r with
  | error e => exact (maintains_withLoader hx (hL.discard update _)).bind fun _ hy => .pure hy
  | ok u =>
    refine (maintains_withLoader hx (hL.apply update _)).bind fun y hy => ?_
    obtain ⟨_ | _ | _, g'⟩ := y
    · exact .pure hy
    · exact .pure hy
    · exact .pure hy

theorem maintains_publish (hg : g.store.root? = some root) (hL : L.Spares root) (target : String)
    (tx : RegistryTransaction (Key × ApplicationRecord)) :
    (publish L g target tx).Maintains (Disk.Roomy root) (StaysAt root) := by
  have hpoison : ∀ {g : Registry σ}, g.store.root? = some root →
      g.poison.store.root? = some root := fun h => (Store.root?_poison _).trans h
  have hview : g.store.view.Maintains (Disk.Roomy root) fun _ => True := by
    unfold Store.view
    split
    · exact .pure trivial
    · exact .see _
  unfold publish
  split
  · exact .pure hg
  · refine hview.bind fun view _ => ?_
    cases view with
    | error e => exact .pure hg
    | ok view =>
      simp only
      rcases view.run tx with ⟨⟨k, record⟩ | _ | _, view⟩
      · refine (maintains_withLoader hg (hL.stage _ _ _)).bind fun x hx => ?_
        obtain ⟨_ | _ | _, g'⟩ := x
        · exact maintains_commitAndApply hx hL target _ _
        · exact .pure hx
        · exact .pure (hpoison hx)
      · exact .pure hg
      · exact .pure (hpoison hg)

theorem maintains_loadProgram (hg : g.store.root? = some root) (hL : L.Spares root)
    (p : ProgramId) (kind : ProgramKind) :
    (loadProgram L g p kind).Maintains (Disk.Roomy root) (StaysAt root) := by
  unfold loadProgram
  refine (maintains_transactOn hg _).bind fun x hx => ?_
  obtain ⟨_ | _ | _ | _, g'⟩ := x
  · simp only
    split
    · exact .pure hx
    · refine (maintains_withLoader hx (hL.load _ _ _ _ _)).bind fun y hy => ?_
      obtain ⟨_ | _ | _, g'⟩ := y
      · exact .pure hy
      · exact .pure hy
      · exact .pure hy
  · exact .pure hx
  · exact .pure hx
  · exact .pure hx

/-- Every request keeps room for every record. -/
theorem maintains_serve (hg : g.store.root? = some root) (hL : L.Spares root) (rq : Request) :
    (g.serve L rq).Maintains (Disk.Roomy root) (StaysAt root) := by
  cases rq with
  | known a => exact .pure hg
  | ask f tx => exact (maintains_transactOn hg tx).bind fun x hx => .pure hx
  | publish target tx => exact maintains_publish hg hL target tx
  | load p kind => exact maintains_loadProgram hg hL p kind

theorem maintains_performAll (hg : g.store.root? = some root) (hL : L.Spares root)
    (ops : List TimedOperation) :
    (performAll L g ops).Maintains (Disk.Roomy root) (StaysAt root) := by
  induction ops generalizing g with
  | nil => exact .pure hg
  | cons e ops ih =>
    obtain ⟨now, op⟩ := e
    rw [performAll, perform_eq_serve]
    exact (maintains_serve hg hL _).bind fun x hx => (ih hx).bind fun y hy => .pure hy

/-- **In every reachable state there is room for each stored record**, and the loader leaves the
store alone. -/
theorem Reached.hasRoom (h : Reached L past g t) (hkeeps : g.store.Keeps m t) :
    (∀ k v, m.get? k = some v → g.store.HasRoom k) ∧
      ∀ root, g.store.root? = some root → L.Spares root := by
  obtain ⟨store, x, t₀, ops, answers, hstore, hL, hrun, hpanic, rfl⟩ := h
  have hstart : (onStore store x).Holds ∅ t₀ := ⟨hstore, fun k v h => by simp at h, rfl⟩
  obtain ⟨-, -, hroot, -⟩ := hstart.performAll (P := fun _ _ => True)
    (fun _ _ _ _ _ _ _ _ _ _ => trivial) (fun _ _ _ _ _ => trivial) trivial hL hrun hpanic
  have hroot : g.store.root? = store.root? := hroot
  refine ⟨fun k v hv root hr => ?_, fun root hr => hL root (hroot ▸ hr)⟩
  have hstored : store.root? = some root := hroot ▸ hr
  have hroomy : Disk.Roomy root t := by
    have hfirst : Disk.Roomy root t₀ := by
      cases store with
      | memory y => cases hstored
      | disk d =>
        obtain rfl : d.root = root := Option.some.inj hstored
        exact hstore.2.1.roomy_of_empty
    have hlast := (maintains_performAll (g := onStore store x) hstored (hL root hstored) ops t₀
      hfirst).1
    rwa [hrun] at hlast
  obtain ⟨s, b, y⟩ := g
  cases s with
  | memory y => cases hr
  | disk d =>
    obtain rfl : d.root = root := Option.some.inj hr
    have hmirrors : Disk.Mirrors d.root m t := hkeeps
    exact hroomy.fits k (hmirrors.holds.complete k v hv)

end Registry

end AppRegistry
