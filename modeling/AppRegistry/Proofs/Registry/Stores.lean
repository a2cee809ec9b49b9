import AppRegistry.Proofs.Registry.Alike

/-!
# What a store holds

A store in memory and a store on disk both have a map of records (`Store.Keeps`). A transaction over
either sees that map and its commit changes the map, or it fails and changes nothing. A store that
can commit (`Store.IsReady`) holds its map (`Store.Holds`): there a transaction fails only on disk,
and only at a key whose files are not within the limits (`Store.HasRoom`).

Main results: `Store.Keeps.run` for the transaction and `Store.Keeps.commit` for its commit.
-/

namespace AppRegistry

variable {m m' : OrderedMap Key Json} {t t' : FileTree} {s : Store} {α β : Type}

/-! ## On disk -/

namespace Disk

variable {root : Path} {staged : Changes} {P : Key → Prop}

/-- What is read of a store is what the map has. -/
theorem Mirrors.eq_get?_of_recordAt (h : Mirrors root m t) {k : Key} {x : Option Json}
    (hx : recordAt root t k = .ok x) : x = m.get? k := by
  cases hk : m.get? k with
  | some v =>
    rw [h.holds.recordAt hk] at hx
    exact (Except.ok.inj hx).symm
  | none =>
    cases x with
    | none => rfl
    | some v =>
      obtain ⟨-, b, -, hb, -, -⟩ := recordAt_eq_some_iff.mp hx
      obtain ⟨k', v', -, hcomponents, hk', -⟩ := h.holds.sound _ b hb
      rw [Key.ext hcomponents, hk] at hk'
      cases hk'

/-- A commit either makes all of its changes or none. -/
theorem Mirrors.commit_cases (h : Mirrors root m t) (hstaged : staged.StaysIn P Storable) :
    (∃ e t', (Disk.commit root staged).run t = (.error e, t') ∧ Mirrors root m t') ∨
      ∃ t', (Disk.commit root staged).run t = (.ok (), t') ∧
        Mirrors root (Changes.applyAll m staged.toList) t' := by
  have htidy := stored_tidy_run (only_commit staged) h.tidy
  cases hr : ((Disk.commit root staged).run t).1 with
  | error e =>
    obtain ⟨-, hsettled, hrest⟩ := commit_run_error h.tidy.1 h.atRest hr
    refine .inl ⟨e, _, Prod.ext hr rfl, htidy, hrest, ?_⟩
    exact h.holds.congr (sameRecords_of_eq fun d => (hsettled.kept d _ (by decide)).symm)
  | ok u =>
    obtain ⟨-, ⟨-, hsettled, hrest⟩, hlimits⟩ := commit_run h.tidy.1 h.atRest hr
    refine .inr ⟨_, Prod.ext hr rfl, htidy, hrest, ?_⟩
    have hheld := h.holds.committed
      (fun k v hkv => ((hstaged k _ ((OrderedMap.mem_toList_iff _ _ _).mp hkv)).2 v rfl).readsBack)
      fun k v hkv => Path.InLimits.of_last (hlimits k v hkv) (by decide)
    exact hheld.congr (sameRecords_of_eq fun d => (hsettled.kept d _ (by decide)).symm)

/-- Only what stands at or below the root counts. -/
theorem contents_congr (hsame : ∀ q, root <+: q → t'.get? q = t.get? q) :
    contents root t' = contents root t := by
  funext d n
  have hget := hsame (place root d n) (by
    rw [place, List.append_assoc]
    exact List.prefix_append _ _)
  rw [contents, contents, hget]

theorem Mirrors.congr (h : Mirrors root m t)
    (hsame : ∀ q, root <+: q → t'.get? q = t.get? q) : Mirrors root m t' := by
  have hcontents := contents_congr hsame
  exact ⟨⟨(hsame root List.prefix_rfl).trans h.tidy.1, hcontents ▸ h.tidy.2⟩,
    hcontents ▸ h.atRest, hcontents ▸ h.holds⟩

end Disk

/-! ## In memory and on disk -/

namespace Store

/-- The directory of a store on disk. -/
def root? : Store → Option Path
  | memory _ => none
  | disk d => some d.root

/-- Whether a store has the records of a map, whatever may have panicked in it. -/
def Keeps (m : OrderedMap Key Json) (t : FileTree) : Store → Prop
  | memory x => x.records = m
  | disk d => Disk.Mirrors d.root m t

/-- Whether a store can commit: no transaction on it panicked, and on disk it can write its journal.
-/
structure IsReady (s : Store) : Prop where
  isPoisoned : s.isPoisoned = false
  journal : ∀ root, s.root? = some root → (Disk.journalStagingPath root).InLimits

/-- Whether a store holds the records of a map. No transaction on it panicked, and on disk it can
write its journal. -/
def Holds (m : OrderedMap Key Json) (t : FileTree) : Store → Prop
  | memory x => x = ⟨m, false⟩
  | disk d => d.poisoned = false ∧ Disk.Mirrors d.root m t ∧
    (Disk.journalStagingPath d.root).InLimits

/-- A store holds the records that it has if it can commit. -/
theorem holds_iff : s.Holds m t ↔ s.Keeps m t ∧ s.IsReady := by
  cases s with
  | memory x =>
    constructor
    · rintro rfl
      exact ⟨rfl, rfl, nofun⟩
    · rintro ⟨rfl, hready⟩
      show x = ⟨x.records, false⟩
      rw [← show x.poisoned = false from hready.isPoisoned]
  | disk d =>
    constructor
    · rintro ⟨hpoisoned, hmirrors, hjournal⟩
      exact ⟨hmirrors, hpoisoned, fun root hr => Option.some.inj hr ▸ hjournal⟩
    · rintro ⟨hmirrors, hready⟩
      exact ⟨hready.isPoisoned, hmirrors, hready.journal d.root rfl⟩

theorem holds_empty_memory (t : FileTree) : (memory .empty).Holds ∅ t := rfl

/-- A store on a new directory holds nothing. -/
theorem holds_empty_disk {root : Path} (hroot : t.get? root = some .directory)
    (hempty : ∀ p, p ≠ [] → t.get? (root ++ p) = none)
    (hlimits : (Disk.journalStagingPath root).InLimits) : (disk ⟨root, false⟩).Holds ∅ t :=
  ⟨rfl, Disk.mirrors_of_empty hroot hempty, hlimits⟩

/-- Whether the files of a key are within the limits. In memory there are none. -/
def HasRoom (s : Store) (k : Key) : Prop := ∀ root, s.root? = some root → Disk.Fits root k

theorem view_run (h : s.isPoisoned = false) : s.view.run t = (.ok ⟨s.snapshot t, ∅⟩, t) := by
  rw [Store.view, if_neg (by simp [h]), Script.run_see]

theorem view_run_poisoned (h : s.isPoisoned = true) : s.view.run t = (.error .poisoned, t) := by
  rw [Store.view, if_pos h, Script.run_pure]

theorem Keeps.poison (h : s.Keeps m t) : s.poison.Keeps m t := by
  cases s with
  | memory x => exact h
  | disk d => exact h

theorem root?_poison (s : Store) : s.poison.root? = s.root? := by
  cases s <;> rfl

/-- A transaction begins with the records of the map, as far as they can be reached. -/
theorem Keeps.sees (h : s.Keeps m t) :
    Overlay.Sees (fun k => ∃ x, (s.snapshot t).get k = .ok x) ⟨s.snapshot t, ∅⟩ m m := by
  refine ⟨?_, Changes.applyAll_empty m⟩
  cases s with
  | memory x =>
    obtain rfl : x.records = m := h
    exact ⟨fun k _ => (Snapshot.shows_ofMap x.records).get k trivial,
      (Snapshot.shows_ofMap x.records).range⟩
  | disk d =>
    have h : Disk.Mirrors d.root m t := h
    refine ⟨fun k ⟨x, hx⟩ => ?_, h.shows.range⟩
    rw [hx, h.eq_get?_of_recordAt hx]

theorem Keeps.get_of_hasRoom (h : s.Keeps m t) {k : Key} (hk : s.HasRoom k) :
    ∃ x, (s.snapshot t).get k = .ok x := by
  cases s with
  | memory x => exact ⟨x.records.get? k, rfl⟩
  | disk d => exact ⟨_, (show Disk.Mirrors d.root m t from h).shows.get k (hk d.root rfl)⟩

/-- **A transaction over a store sees the map that the store has**, or it ends with the error of a
key for which the store has no room. -/
theorem Keeps.run (h : s.Keeps m t) {F : Footprint} {R : α → β → Prop}
    {tx : RegistryTransaction α} {tx' : RegistryTransaction β} (htx : Alike F R tx tx')
    (hm : AgreeOn F.reads m m') :
    (∃ e k, (Overlay.run ⟨s.snapshot t, ∅⟩ tx).1 = .rejected (.storage e) ∧ F.reads k ∧
        ¬ s.HasRoom k) ∨
      (Overlay.run ⟨s.snapshot t, ∅⟩ tx).1 = (tx.runOn m).1 ∧
      Changes.applyAll m (Overlay.run ⟨s.snapshot t, ∅⟩ tx).2.staged.toList = (tx.runOn m).2 ∧
      (Overlay.run ⟨s.snapshot t, ∅⟩ tx).2.staged.StaysIn F.writes Disk.Storable := by
  have hfail : ∀ k, (¬ ∃ x, (s.snapshot t).get k = .ok x) →
      ∃ e, (s.snapshot t).get k = .error e := by
    intro k hk
    cases hget : (s.snapshot t).get k with
    | error e => exact ⟨e, rfl⟩
    | ok x => exact absurd ⟨x, hget⟩ hk
  rcases htx.run h.sees hfail hm Changes.staysIn_empty with ⟨e, k, hrun, hk, hP⟩ | hrun
  · exact .inl ⟨e, k, hrun, hk, fun hroom => hP (h.get_of_hasRoom hroom)⟩
  · exact .inr ⟨hrun.1, hrun.2.1.copy_eq, hrun.2.2⟩

/-- **A commit changes the map that the store has**, or it fails and changes nothing. It fails on a
store that can commit only for want of room. -/
theorem Keeps.commit (h : s.Keeps m t) {staged : Changes} {P : Key → Prop}
    (hstaged : staged.StaysIn P Disk.Storable) :
    (∃ e t', (s.commit staged).run t = ((.error e, s), t') ∧ s.Keeps m t' ∧
        (s.IsReady → ∃ k, P k ∧ ¬ s.HasRoom k)) ∨
      ∃ s' t', (s.commit staged).run t = ((.ok (), s'), t') ∧
        s'.Keeps (Changes.applyAll m staged.toList) t' ∧ s'.root? = s.root? ∧
        (s.IsReady → s'.IsReady) := by
  cases s with
  | memory x =>
    obtain rfl : x.records = m := h
    exact .inr ⟨_, t, rfl, rfl, rfl, fun hready => ⟨hready.isPoisoned, nofun⟩⟩
  | disk d =>
    have hmirrors : Disk.Mirrors d.root m t := h
    simp only [Store.commit, Script.run_bind]
    rcases hmirrors.commit_cases hstaged with ⟨e, t', hrun, hafter⟩ | ⟨t', hrun, hafter⟩
    · refine .inl ⟨e, t', by rw [hrun]; rfl, hafter, fun hready => ?_⟩
      refine Classical.byContradiction fun hroom => ?_
      have hfits : staged.StaysIn (Disk.Fits d.root) Disk.Storable := fun k v hkv =>
        ⟨Classical.byContradiction fun hk =>
          hroom ⟨k, (hstaged k v hkv).1, fun hr => hk (hr d.root rfl)⟩, (hstaged k v hkv).2⟩
      obtain ⟨t₂, hok, -⟩ := hmirrors.commit (hready.journal d.root rfl) hfits
      rw [hrun] at hok
      cases hok
    · exact .inr ⟨disk d, t', by rw [hrun]; rfl, hafter, rfl, id⟩

end Store

end AppRegistry
