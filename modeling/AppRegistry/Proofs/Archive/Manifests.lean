import AppRegistry.Archive.Manifest
import AppRegistry.Proofs.Application.Codecs
import AppRegistry.Proofs.Files.Growth
import AppRegistry.Proofs.Json.Pretty

/-!
# Manifests are written whole

To stage a manifest lets the tree grow by directories and one file, and to apply it moves that file
into place. So a manifest that is not in this place can be read as before.

Main results: `Manifest.stage_run` and `Manifest.read_of_applied`.
-/

namespace AppRegistry.Manifest

variable {t t₁ t' : FileTree} {l l' : ArchiveLocation} {s s' : Specification} {d : Draft}
  {p : Path} {b : ByteArray}

/-! ## Reading -/

/-- **A specification comes back from its manifest.** -/
theorem ofBytes?_bytes (s : Specification) : ofBytes? (bytes s) = some s := by
  unfold ofBytes? bytes
  rw [Json.readRecordBytes?_pretty (tame_encode_specification s).1]
  exact decode?_encode s

/-- The place that the manifest of an archive has in a tree, or is to have. -/
def place? (t : FileTree) (l : ArchiveLocation) : Option Path :=
  match l.manifestPath? with
  | none => none
  | some path =>
    match WrittenPath.resolve t path with
    | .error _ => none
    | .ok here => here.path?

theorem place?_eq_some_iff : place? t l = some p ↔
    ∃ path, l.manifestPath? = some path ∧ WrittenPath.resolve t path = .ok ⟨p, 0⟩ := by
  unfold place?
  cases l.manifestPath? with
  | none => simp
  | some path =>
    cases hs : WrittenPath.resolve t path with
    | error e => simp [hs]
    | ok here => simp [hs, WrittenPath.path?_eq_some_iff]

theorem place?_mono (h : t.KeepsDirectories t') (hp : place? t l = some p) :
    place? t' l = some p := by
  obtain ⟨path, hpath, hs⟩ := place?_eq_some_iff.mp hp
  exact place?_eq_some_iff.mpr ⟨path, hpath, WrittenPath.resolve_mono h hs⟩

/-- Whether the manifest of an archive is a file at a place. -/
def Stands (t : FileTree) (l : ArchiveLocation) (p : Path) (b : ByteArray) : Prop :=
  ∃ path, l.manifestPath? = some path ∧ WrittenPath.find t path = .ok (p, .file b)

theorem read_eq_iff :
    read t l = .ok (some s) ↔ ∃ p b, Stands t l p b ∧ ofBytes? b = some s := by
  unfold read Stands
  cases l.manifestPath? with
  | none => simp
  | some path =>
    rcases hfind : WrittenPath.find t path with e | ⟨q, _ | c⟩
    · cases e <;> simp [hfind]
    · simp [hfind]
    · cases hbytes : ofBytes? c <;> simp [hfind, hbytes]

theorem Stands.place? (h : Stands t l p b) : place? t l = some p := by
  obtain ⟨path, hpath, hfind⟩ := h
  exact place?_eq_some_iff.mpr ⟨path, hpath, (WrittenPath.find_eq_ok_iff.mp hfind).1⟩

theorem Stands.get? (h : Stands t l p b) : t.get? p = some (.file b) := by
  obtain ⟨path, -, hfind⟩ := h
  exact (WrittenPath.find_eq_ok_iff.mp hfind).2.2.1

theorem Stands.mono (h : Stands t l p b) (hkeeps : t.KeepsDirectories t')
    (hget : t'.get? p = some (.file b)) : Stands t' l p b :=
  h.imp fun _ h => ⟨h.1, WrittenPath.find_mono hkeeps h.2 hget⟩

/-- A manifest is read as before in a tree that has grown. -/
theorem read_of_grows (h : t.Grows t') (hread : read t l = .ok (some s)) :
    read t' l = .ok (some s) := by
  obtain ⟨p, b, hstands, hb⟩ := read_eq_iff.mp hread
  exact read_eq_iff.mpr ⟨p, b, hstands.mono h.keepsDirectories (h.entry _ _ hstands.get?), hb⟩

/-! ## Staging -/

/-- Whether a manifest was staged between two trees, in a file of its own. -/
structure Drafted (l : ArchiveLocation) (s : Specification) (t t' : FileTree) (d : Draft)
    (p : Path) : Prop where
  target : l.manifestPath? = some d.target
  free : t.get? p = none
  temporary : WrittenPath.resolve t' d.temporary = .ok ⟨p, 0⟩
  written : t'.get? p = some (.file (bytes s))

theorem free_of_temporaryIn? {directory path : WrittenPath}
    (h : temporaryIn? t directory = some path) : WrittenPath.find t path = .error .notFound := by
  simp only [temporaryIn?, Option.bind_eq_bind, Option.bind_eq_some_iff] at h
  obtain ⟨absolute, -, hsome⟩ := h
  obtain ⟨n, -, hn⟩ := List.exists_of_findSome?_eq_some hsome
  split at hn
  · next hfree =>
    obtain rfl := Option.some.inj hn
    unfold isFree at hfree
    split at hfree
    · assumption
    · cases hfree
  · cases hn

/-- **To stage a manifest lets the tree grow**, and what is staged holds the specification. -/
theorem stage_run {staging : Staging Draft} (h : (stage l s).run t = (staging, t')) :
    staging ≠ .panicked ∧ t.Grows t' ∧ ∀ d, staging = .staged d → ∃ p, Drafted l s t t' d p := by
  unfold stage at h
  cases hpath : l.manifestPath? with
  | none =>
    simp only [hpath, Script.run_pure] at h
    cases h
    exact ⟨nofun, .refl t, nofun⟩
  | some path =>
    simp only [hpath, Script.run_bind] at h
    have hgrows := WrittenPath.grows_createDirectories (parentOf path) t
    generalize (WrittenPath.createDirectories (parentOf path)).run t = made at h hgrows
    obtain ⟨_ | _, t₁⟩ := made
    · cases h
      exact ⟨nofun, hgrows, nofun⟩
    · simp only [Script.run_bind, Script.run_see] at h
      cases htemporary : temporaryIn? t₁ (parentOf path) with
      | none =>
        simp only [htemporary, Script.run_pure] at h
        cases h
        exact ⟨nofun, hgrows, nofun⟩
      | some temporary =>
        simp only [htemporary, Script.run_bind] at h
        generalize hcall : (WrittenPath.callAt temporary (.write · (bytes s))).run t₁ = called at h
        obtain ⟨r, t₂⟩ := called
        rcases WrittenPath.of_callAt hcall with ⟨rfl, p, hp, hwrite⟩ | ⟨⟨e, rfl⟩, rfl⟩
        · cases h
          -- The name of the temporary file was free, so writing it is growth.
          have hfree := WrittenPath.get?_of_find_notFound hp (free_of_temporaryIn? htemporary)
          have hgrows' := FileTree.grows_write hwrite hfree
          refine ⟨nofun, hgrows.trans hgrows', ?_⟩
          rintro _ ⟨⟩
          refine ⟨p, hpath, hgrows.get?_eq_none hfree, ?_, ?_⟩
          · exact WrittenPath.resolve_mono hgrows'.keepsDirectories hp
          · rw [(FileTree.get?_of_write hwrite).2.2, if_pos rfl]
        · cases h
          exact ⟨nofun, hgrows, nofun⟩

/-! ## Applying -/

/-- What is staged is moved to its target, or it could not be written there. -/
theorem apply_run {r : Except LoaderError Unit} (h : (apply d).run t = (r, t'))
    (hp : WrittenPath.resolve t d.temporary = .ok ⟨p, 0⟩) (hfile : t.get? p = some (.file b)) :
    r = .error (.cannotWrite d.target) ∨
      r = .ok () ∧ t.KeepsDirectories t' ∧ ∃ q, WrittenPath.find t' d.target = .ok (q, .file b) ∧
        ∀ o, o ≠ q → o ≠ p → t'.get? o = t.get? o := by
  rw [apply, Script.run_bind] at h
  generalize hrename : (WrittenPath.rename d.temporary d.target).run t = renamed at h
  obtain ⟨_ | _, t₁⟩ := renamed
  · simp only [Script.run_bind, Script.run_pure, Prod.mk.injEq] at h
    exact .inl h.1.symm
  · cases h
    -- What is moved is the file that the draft names, and it keeps its bytes.
    obtain ⟨p', e, q, hfind, hq, hend, hrun⟩ := WrittenPath.of_rename hrename
    obtain ⟨hp', -, he, -⟩ := WrittenPath.find_eq_ok_iff.mp hfind
    obtain rfl : p' = p := congrArg Standpoint.base (Except.ok.inj (hp'.symm.trans hp))
    obtain rfl := Option.some.inj (he.symm.trans hfile)
    obtain ⟨hkeeps, hshort, hget, hrest⟩ := FileTree.of_rename_file hrun hfile
    refine .inr ⟨rfl, hkeeps, q, ?_, hrest⟩
    exact WrittenPath.find_eq_ok_iff.mpr ⟨WrittenPath.resolve_mono hkeeps hq, hshort, hget, hend⟩

/-- **A manifest that was staged and applied can be read**, and every other manifest is read as
before. -/
theorem read_of_applied (hstage : (stage l s).run t = (.staged d, t₁))
    (happly : (apply d).run t₁ = (.ok (), t')) :
    read t' l = .ok (some s) ∧ ∀ l' s', (∀ p, place? t' l = some p → place? t' l' ≠ some p) →
      read t l' = .ok (some s') → read t' l' = .ok (some s') := by
  obtain ⟨-, hgrows, hstaged⟩ := stage_run hstage
  obtain ⟨p, htarget, hfree, htemporary, hwritten⟩ := hstaged d rfl
  rcases apply_run happly htemporary hwritten with hfailed | ⟨-, hkeeps, q, hq, hrest⟩
  · cases hfailed
  have hstands : Stands t' l q (bytes s) := ⟨_, htarget, hq⟩
  refine ⟨read_eq_iff.mpr ⟨q, _, hstands, ofBytes?_bytes s⟩, fun l' s' hapart hread => ?_⟩
  obtain ⟨o, b, hold, hb⟩ := read_eq_iff.mp hread
  have hplace := place?_mono hkeeps (place?_mono hgrows.keepsDirectories hold.place?)
  -- Another manifest lies neither at the target, as its place is another, nor where the file was
  -- staged, as nothing was there.
  have hoq : o ≠ q := fun hoq => hapart q hstands.place? (hoq ▸ hplace)
  have hop : o ≠ p := fun hop => by cases hfree.symm.trans (hop ▸ hold.get?)
  have hget : t'.get? o = some (.file b) :=
    (hrest o hoq hop).trans (hgrows.entry _ _ hold.get?)
  exact read_eq_iff.mpr ⟨o, b, hold.mono (hgrows.keepsDirectories.trans hkeeps) hget, hb⟩

end AppRegistry.Manifest
