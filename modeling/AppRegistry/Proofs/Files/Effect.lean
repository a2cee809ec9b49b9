import AppRegistry.Proofs.Files.Lookup

/-!
# What file calls do

Each call is described by the look-ups of the tree it leaves. A call that succeeds has changed what
stands at the paths it names and nothing else (`get?_of_createDirectory`, `get?_of_write`,
`get?_of_rename`, `get?_of_removeFile`, `get?_of_removeDirectory`), and it succeeds where the tree
gives no reason against it.
-/

namespace AppRegistry.FileTree

variable {t t' : FileTree} {p q : Path} {b : ByteArray}

/-! ## Placing and removing -/

theorem mayPlace_of_slot {x : Option Entry} (h : t.slot p = .ok x) (hx : x ≠ some .directory)
    (e : Entry) : t.MayPlace p e := by
  obtain ⟨-, rfl, hd⟩ := slot_eq_ok_iff.mp h
  exact ⟨ne_nil_of_get?_ne hx, hd (ne_nil_of_get?_ne hx), .inr (isLeaf_of_not_directory hx)⟩

theorem get?_remove_of_leaf (h : t.isLeaf p = true) (hp : p ≠ []) (r : Path) :
    (t.remove p).get? r = if p = r then none else t.get? r := by
  rw [get?_remove h]
  by_cases hr : p = r
  · subst hr; simp [hp]
  · simp [hr]

/-! ## Creating a directory -/

theorem get?_of_createDirectory (h : t.run (.createDirectory p) = .ok t') :
    t.get? p = none ∧ ∀ r, t'.get? r = if p = r then some .directory else t.get? r := by
  simp only [run, createDirectory] at h
  split at h
  · cases h
  · cases h
  · next hs =>
    obtain rfl := Except.ok.inj h
    exact ⟨(slot_eq_ok_iff.mp hs).2.1.symm, get?_place (mayPlace_of_slot hs (by simp) _)⟩

theorem createDirectory_of_present {e : Entry} (hp : p.HasShortNames) (h : t.get? p = some e) :
    t.run (.createDirectory p) = .error .alreadyExists := by
  have hs : t.slot p = .ok (some e) :=
    slot_eq_ok_iff.mpr ⟨hp, h.symm, get?_dropLast h⟩
  simp only [run, createDirectory, hs]

theorem createDirectory_isOk (hp : p.HasShortNames) (h : t.get? p = none)
    (hd : t.get? p.dropLast = some .directory) : ∃ t', t.run (.createDirectory p) = .ok t' := by
  have hs : t.slot p = .ok none := slot_eq_ok_iff.mpr ⟨hp, h.symm, fun _ => hd⟩
  exact ⟨t.place p .directory, by simp only [run, createDirectory, hs]⟩

/-! ## Writing a file -/

theorem get?_of_write (h : t.run (.write p b) = .ok t') :
    p.HasShortNames ∧ t.get? p ≠ some .directory ∧
      ∀ r, t'.get? r = if p = r then some (.file b) else t.get? r := by
  simp only [run, write] at h
  cases hs : t.slot p with
  | error e => simp only [hs] at h; cases h
  | ok x =>
    have hx : x ≠ some .directory := by
      rintro rfl
      simp only [hs] at h
      cases h
    have ht : t.place p (.file b) = t' := by
      rw [hs] at h
      split at h
      · cases h
      · next he => exact absurd (Except.ok.inj he) hx
      · exact Except.ok.inj h
    obtain ⟨hn, hget, -⟩ := slot_eq_ok_iff.mp hs
    exact ⟨hn, hget ▸ hx, ht ▸ get?_place (mayPlace_of_slot hs hx _)⟩

theorem write_isOk (hp : p.HasShortNames) (h : t.get? p ≠ some .directory)
    (hd : t.get? p.dropLast = some .directory) (b : ByteArray) :
    ∃ t', t.run (.write p b) = .ok t' := by
  have hs : t.slot p = .ok (t.get? p) := slot_eq_ok_iff.mpr ⟨hp, rfl, fun _ => hd⟩
  exact ⟨t.place p (.file b), by simp only [run, write, hs]⟩

/-! ## Removing a file -/

theorem get?_of_removeFile (h : t.run (.removeFile p) = .ok t') : p.HasShortNames ∧
    (∃ b, t.get? p = some (.file b)) ∧ ∀ r, t'.get? r = if p = r then none else t.get? r := by
  simp only [run, removeFile] at h
  split at h
  · cases h
  · cases h
  · next b hr =>
    obtain rfl := Except.ok.inj h
    obtain ⟨hshort, hb⟩ := require_eq_ok_iff.mp hr
    have hd : t.get? p ≠ some .directory := by simp [hb]
    exact ⟨hshort, ⟨b, hb⟩, get?_remove_of_leaf (isLeaf_of_not_directory hd) (ne_nil_of_get?_ne hd)⟩

theorem removeFile_isOk (hp : p.HasShortNames) (h : t.get? p = some (.file b)) :
    ∃ t', t.run (.removeFile p) = .ok t' := by
  have hr : t.require p = .ok (.file b) := require_eq_ok_iff.mpr ⟨hp, h⟩
  exact ⟨t.remove p, by simp only [run, removeFile, hr]⟩

/-- Nothing stands where no file can be found. -/
theorem get?_of_removeFile_notFound (h : t.run (.removeFile p) = .error .notFound) :
    t.get? p = none := by
  cases hx : t.get? p with
  | none => rfl
  | some e =>
    obtain ⟨hshort, hlong⟩ := require_of_get? hx
    by_cases hs : p.HasShortNames
    · cases e <;> simp only [run, removeFile, hshort hs] at h <;> cases h
    · simp only [run, removeFile, hlong hs] at h
      cases h

theorem removeFile_notFound (hp : p.HasShortNames) (h : t.get? p = none)
    (hd : t.get? p.dropLast = some .directory) : t.run (.removeFile p) = .error .notFound := by
  have hs : t.slot p = .ok none := slot_eq_ok_iff.mpr ⟨hp, h.symm, fun _ => hd⟩
  simp only [run, removeFile, require, hs]

/-! ## Removing a directory -/

theorem get?_of_removeDirectory (h : t.run (.removeDirectory p) = .ok t') :
    p ≠ [] ∧ t.get? p = some .directory ∧ t.isLeaf p = true ∧
      ∀ r, t'.get? r = if p = r then none else t.get? r := by
  simp only [run, removeDirectory] at h
  split at h
  · cases h
  · cases h
  · next hr =>
    split at h
    · next hl =>
      obtain rfl := Except.ok.inj h
      exact ⟨hl.1, (require_eq_ok_iff.mp hr).2, hl.2, get?_remove_of_leaf hl.2 hl.1⟩
    · cases h

theorem hasShortNames_of_removeDirectory (h : t.run (.removeDirectory p) = .ok t') :
    p.HasShortNames := by
  simp only [run, removeDirectory] at h
  split at h
  · cases h
  · cases h
  · next hr => exact (require_eq_ok_iff.mp hr).1

theorem removeDirectory_isOk (hp : p.HasShortNames) (h : t.get? p = some .directory)
    (hl : t.isLeaf p = true) (hne : p ≠ []) : ∃ t', t.run (.removeDirectory p) = .ok t' := by
  have hr : t.require p = .ok .directory := require_eq_ok_iff.mpr ⟨hp, h⟩
  simp only [run, removeDirectory, hr]
  exact ⟨_, if_pos ⟨hne, hl⟩⟩

/-! ## Renaming a file -/

/-- A file that is renamed is removed and put at the new path, where no directory may stand. -/
theorem eq_of_rename (h : t.run (.rename p q) = .ok t') (hp : t.get? p = some (.file b))
    (hne : p ≠ q) : (∃ x, t.slot q = .ok x ∧ x ≠ some .directory) ∧
      t' = (t.remove p).place q (.file b) := by
  simp only [run, rename, if_neg hne] at h
  split at h
  · cases h
  · cases h
  · next entry target hrequire hslot =>
    obtain rfl : entry = .file b :=
      Option.some.inj ((require_eq_ok_iff.mp hrequire).2.symm.trans hp)
    cases target with
    | none => exact ⟨⟨none, hslot, nofun⟩, (Except.ok.inj h).symm⟩
    | some e =>
      cases e with
      | directory => cases h
      | file => exact ⟨⟨_, hslot, nofun⟩, (Except.ok.inj h).symm⟩

theorem get?_of_rename (h : t.run (.rename p q) = .ok t') (hp : t.get? p = some (.file b))
    (hne : p ≠ q) : q.HasShortNames ∧ t.get? q ≠ some .directory ∧
      ∀ r, t'.get? r = if q = r then some (.file b) else if p = r then none else t.get? r := by
  obtain ⟨⟨x, hs, hx⟩, rfl⟩ := eq_of_rename h hp hne
  obtain ⟨hn, rfl, hd⟩ := slot_eq_ok_iff.mp hs
  have hpd : t.get? p ≠ some .directory := by simp [hp]
  have hremove := get?_remove_of_leaf (isLeaf_of_not_directory hpd) (ne_nil_of_get?_ne hpd)
  have hqn := ne_nil_of_get?_ne hx
  have hpq : p ≠ q.dropLast := fun he => hpd (he ▸ hd hqn)
  have hmay : (t.remove p).MayPlace q (.file b) := by
    refine ⟨hqn, ?_, .inr (isLeaf_of_not_directory ?_)⟩
    · rw [hremove, if_neg hpq]
      exact hd hqn
    · rw [hremove, if_neg hne]
      exact hx
  refine ⟨hn, hx, fun r => ?_⟩
  rw [get?_place hmay, hremove]

theorem get?_source_of_rename (h : t.run (.rename p q) = .ok t') : ∃ e, t.get? p = some e := by
  simp only [run, rename] at h
  cases hr : t.require p with
  | error e => simp only [hr] at h; cases h
  | ok entry => exact ⟨entry, (require_eq_ok_iff.mp hr).2⟩

theorem rename_isOk (hp : p.HasShortNames) (hfile : t.get? p = some (.file b))
    (hq : q.HasShortNames) (htarget : t.get? q ≠ some .directory)
    (hd : t.get? q.dropLast = some .directory) : ∃ t', t.run (.rename p q) = .ok t' := by
  have hr : t.require p = .ok (.file b) := require_eq_ok_iff.mpr ⟨hp, hfile⟩
  have hs : t.slot q = .ok (t.get? q) := slot_eq_ok_iff.mpr ⟨hq, rfl, fun _ => hd⟩
  simp only [run, rename, hr, hs]
  by_cases hpq : p = q
  · exact ⟨t, if_pos hpq⟩
  · rw [if_neg hpq]
    cases hx : t.get? q with
    | none => exact ⟨_, rfl⟩
    | some e =>
      cases e with
      | directory => exact absurd hx htarget
      | file => exact ⟨_, rfl⟩

end AppRegistry.FileTree

