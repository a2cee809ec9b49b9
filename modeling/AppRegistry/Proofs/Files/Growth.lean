import AppRegistry.Proofs.Files.Effect
import AppRegistry.Proofs.Files.Runs
import AppRegistry.Proofs.Files.Written

/-!
# Trees that grow

What a written path names depends on directories only, and on where relative paths start. So it
names the same place in a tree that has kept these (`WrittenPath.resolve_mono`), and the same entry
if that was kept too (`WrittenPath.find_mono`).

To make directories changes nothing that was there: the tree grows (`FileTree.Grows`).
-/

namespace AppRegistry

namespace FileTree

variable {t t' t'' : FileTree} {p q : Path} {b : ByteArray}

/-- Whether a tree has kept the directories of another, and relative paths start where they did. -/
structure KeepsDirectories (t t' : FileTree) : Prop where
  directory : ∀ p, t.get? p = some .directory → t'.get? p = some .directory
  working : t'.working = t.working

/-- Whether a tree has kept all that another holds, and relative paths start where they did. -/
structure Grows (t t' : FileTree) : Prop where
  entry : ∀ p e, t.get? p = some e → t'.get? p = some e
  working : t'.working = t.working

theorem KeepsDirectories.trans (h : t.KeepsDirectories t') (h' : t'.KeepsDirectories t'') :
    t.KeepsDirectories t'' :=
  ⟨fun p hp => h'.directory p (h.directory p hp), h'.working.trans h.working⟩

theorem Grows.refl (t : FileTree) : t.Grows t := ⟨fun _ _ => id, rfl⟩

theorem Grows.trans (h : t.Grows t') (h' : t'.Grows t'') : t.Grows t'' :=
  ⟨fun p e he => h'.entry p e (h.entry p e he), h'.working.trans h.working⟩

theorem Grows.keepsDirectories (h : t.Grows t') : t.KeepsDirectories t' :=
  ⟨fun p => h.entry p .directory, h.working⟩

/-- What is free in the greater tree is free in the smaller one. -/
theorem Grows.get?_eq_none (h : t.Grows t') (hp : t'.get? p = none) : t.get? p = none :=
  Option.eq_none_iff_forall_ne_some.mpr fun e he => by simp [h.entry p e he] at hp

/-! ## Calls that let the tree grow -/

@[simp] theorem working_place (t : FileTree) (p : Path) (e : Entry) :
    (t.place p e).working = t.working := by
  unfold place
  split <;> rfl

@[simp] theorem working_remove (t : FileTree) (p : Path) : (t.remove p).working = t.working := by
  unfold remove
  split <;> rfl

theorem grows_createDirectory (h : t.run (.createDirectory p) = .ok t') : t.Grows t' := by
  obtain ⟨hfree, hget⟩ := get?_of_createDirectory h
  refine ⟨fun r e hr => ?_, ?_⟩
  · rw [hget, if_neg]
    · exact hr
    · rintro rfl
      cases hfree.symm.trans hr
  · simp only [run, createDirectory] at h
    split at h <;> cases h
    exact working_place _ _ _

theorem grows_write (h : t.run (.write p b) = .ok t') (hfree : t.get? p = none) : t.Grows t' := by
  obtain ⟨-, -, hget⟩ := get?_of_write h
  refine ⟨fun r e hr => ?_, ?_⟩
  · rw [hget, if_neg]
    · exact hr
    · rintro rfl
      cases hfree.symm.trans hr
  · simp only [run, write] at h
    split at h <;> cases h
    exact working_place _ _ _

/-- A file that is renamed leaves the directories as they are. -/
theorem keepsDirectories_rename (h : t.run (.rename p q) = .ok t')
    (hp : t.get? p = some (.file b)) (hne : p ≠ q) : t.KeepsDirectories t' := by
  obtain ⟨-, hq, hget⟩ := get?_of_rename h hp hne
  refine ⟨fun r hr => ?_, ?_⟩
  · have hqr : q ≠ r := fun hqr => hq (hqr ▸ hr)
    have hpr : p ≠ r := by
      rintro rfl
      cases hp.symm.trans hr
    rw [hget, if_neg hqr, if_neg hpr]
    exact hr
  · rw [(eq_of_rename h hp hne).2, working_place, working_remove]

/-- What a file that is renamed leaves, even if it is renamed to where it is. -/
theorem of_rename_file (h : t.run (.rename p q) = .ok t') (hp : t.get? p = some (.file b)) :
    t.KeepsDirectories t' ∧ q.HasShortNames ∧ t'.get? q = some (.file b) ∧
      ∀ r, r ≠ q → r ≠ p → t'.get? r = t.get? r := by
  by_cases hne : p = q
  · subst hne
    simp only [run, rename, if_pos] at h
    split at h
    · cases h
    · cases h
    · next hrequire _ =>
      obtain rfl := Except.ok.inj h
      exact ⟨(Grows.refl t).keepsDirectories, (require_eq_ok_iff.mp hrequire).1, hp,
        fun _ _ _ => rfl⟩
  · obtain ⟨hshort, -, hget⟩ := get?_of_rename h hp hne
    refine ⟨keepsDirectories_rename h hp hne, hshort, by rw [hget, if_pos rfl], ?_⟩
    exact fun r hrq hrp => by rw [hget, if_neg (Ne.symm hrq), if_neg (Ne.symm hrp)]

end FileTree

/-! ## Written paths in a tree that grows -/

namespace WrittenPath

variable {t t' : FileTree} {s : WrittenPath} {here there : Standpoint} {p : Path} {e : Entry}

theorem path?_eq_some_iff : here.path? = some p ↔ here = ⟨p, 0⟩ := by
  obtain ⟨q, n⟩ := here
  cases n <;> simp [Standpoint.path?]

theorem requireDirectory_mono (h : t.KeepsDirectories t')
    (hs : requireDirectory t here = .ok ()) : requireDirectory t' here = .ok () := by
  unfold requireDirectory at hs ⊢
  cases hpath : here.path? with
  | none => rfl
  | some q =>
    simp only [hpath] at hs ⊢
    split at hs
    · cases hs
    · next hrequire =>
      obtain ⟨hshort, hdir⟩ := FileTree.require_eq_ok_iff.mp hrequire
      rw [FileTree.require_eq_ok_iff.mpr ⟨hshort, h.directory q hdir⟩]
    · cases hs

theorem follow_mono (h : t.KeepsDirectories t') {parts : List String}
    (hs : follow t here parts = .ok there) : follow t' here parts = .ok there := by
  -- Each part moves the standpoint, so that is general; only a dot asks the tree for anything.
  induction parts generalizing here with
  | nil => exact hs
  | cons part rest ih =>
    rw [follow] at hs ⊢
    by_cases hempty : part = ""
    · rw [if_pos hempty] at hs ⊢
      exact ih hs
    rw [if_neg hempty] at hs ⊢
    by_cases hdots : part = "." ∨ part = ".."
    · cases hdir : requireDirectory t here with
      | error e =>
        rw [hdir] at hs
        rcases hdots with rfl | rfl <;> cases hs
      | ok u =>
        rw [requireDirectory_mono h hdir]
        rw [hdir] at hs
        rcases hdots with rfl | rfl
        · exact ih hs
        · exact ih hs
    · obtain ⟨hdot, hdots⟩ := not_or.mp hdots
      rw [if_neg hdot, if_neg hdots] at hs ⊢
      cases hpath : here.path? with
      | none =>
        rw [hpath] at hs
        cases hs
      | some q =>
        rw [hpath] at hs
        exact ih hs

/-- **A written path names the same place** where the directories were kept. -/
theorem resolve_mono (h : t.KeepsDirectories t') (hs : resolve t s = .ok there) :
    resolve t' s = .ok there := by
  unfold resolve at hs ⊢
  split at hs
  · cases hs
  split at hs
  · cases hs
  split at hs
  · cases hs
  · next hempty hnul hsize =>
    rw [if_neg hempty, if_neg hnul, if_neg hsize, h.working]
    exact follow_mono h hs

theorem find_of_resolve (hs : resolve t s = .ok ⟨p, 0⟩) : find t s = match t.require p with
    | .error e => .error e
    | .ok e => if e ≠ .directory ∧ s.endsInSlash then .error .notADirectory else .ok (p, e) := by
  unfold find
  rw [hs]
  show (t.require p >>= fun e => _) = _
  cases t.require p <;> rfl

/-- What is found is what stands at the place that is named. -/
theorem find_eq_ok_iff : find t s = .ok (p, e) ↔ resolve t s = .ok ⟨p, 0⟩ ∧ p.HasShortNames ∧
    t.get? p = some e ∧ ¬ (e ≠ .directory ∧ s.endsInSlash = true) := by
  constructor
  · intro h
    obtain ⟨q, hq⟩ : ∃ q, resolve t s = .ok ⟨q, 0⟩ := by
      rcases hs : resolve t s with _ | ⟨q, _ | n⟩
      · simp only [find, hs] at h
        cases h
      · exact ⟨q, rfl⟩
      · simp only [find, hs] at h
        cases h
    rw [find_of_resolve hq] at h
    split at h
    · cases h
    · next f hrequire =>
      obtain ⟨hshort, hget⟩ := FileTree.require_eq_ok_iff.mp hrequire
      split at h
      · cases h
      · next hend =>
        obtain ⟨rfl, rfl⟩ := Prod.mk.inj (Except.ok.inj h)
        exact ⟨hq, hshort, hget, hend⟩
  · rintro ⟨hs, hshort, hget, hend⟩
    rw [find_of_resolve hs, FileTree.require_eq_ok_iff.mpr ⟨hshort, hget⟩]
    exact if_neg hend

/-- **A written path names the same entry** where the entry and the directories were kept. -/
theorem find_mono (h : t.KeepsDirectories t') (hs : find t s = .ok (p, e))
    (he : t'.get? p = some e) : find t' s = .ok (p, e) := by
  obtain ⟨hresolve, hshort, -, hend⟩ := find_eq_ok_iff.mp hs
  exact find_eq_ok_iff.mpr ⟨resolve_mono h hresolve, hshort, he, hend⟩

/-! ### Written paths that lead down -/

/-- Without a way up, a written path passes nothing but the directories that its end lies in. -/
theorem prefix_of_follow {parts : List String} (hup : ".." ∉ parts)
    (hs : follow t here parts = .ok ⟨p, 0⟩) : ∃ q, here = ⟨q, 0⟩ ∧ q <+: p := by
  induction parts generalizing here with
  | nil => exact ⟨p, Except.ok.inj hs, List.prefix_rfl⟩
  | cons part rest ih =>
    obtain ⟨hpart, hrest⟩ := List.ne_and_not_mem_of_not_mem_cons hup
    rw [follow] at hs
    split at hs
    · exact ih hrest hs
    split at hs
    · cases hdir : requireDirectory t here with
      | error e =>
        rw [hdir] at hs
        cases hs
      | ok u =>
        rw [hdir] at hs
        exact ih hrest hs
    rw [if_neg (Ne.symm hpart)] at hs
    cases hpath : here.path? with
    | none =>
      rw [hpath] at hs
      cases hs
    | some q =>
      rw [hpath] at hs
      obtain ⟨q', hq, hprefix⟩ := ih hrest hs
      obtain rfl := (Standpoint.mk.inj hq).1
      exact ⟨q, path?_eq_some_iff.mp hpath, (List.prefix_append q [part]).trans hprefix⟩

theorem follow_of_way {parts : List String} (hup : ".." ∉ parts)
    (hs : follow t here parts = .ok ⟨p, 0⟩) (hdir : t'.get? p = some .directory) :
    follow t' here parts = .ok ⟨p, 0⟩ := by
  induction parts generalizing here with
  | nil => exact hs
  | cons part rest ih =>
    -- Every directory that the path passes lies above its end, so it still stands.
    obtain ⟨q, rfl, hprefix⟩ := prefix_of_follow hup hs
    obtain ⟨hpart, hrest⟩ := List.ne_and_not_mem_of_not_mem_cons hup
    rw [follow] at hs ⊢
    split at hs
    · next hempty =>
      rw [if_pos hempty]
      exact ih hrest hs
    next hempty =>
    rw [if_neg hempty]
    split at hs
    · next hdot =>
      rw [if_pos hdot]
      cases hrequire : t.require q with
      | error e =>
        simp only [requireDirectory, Standpoint.path?, hrequire] at hs
        cases hs
      | ok e =>
        have hrequire' : t'.require q = .ok .directory := FileTree.require_eq_ok_iff.mpr
          ⟨(FileTree.require_eq_ok_iff.mp hrequire).1, FileTree.get?_directory_above hdir hprefix⟩
        cases e with
        | file b =>
          simp only [requireDirectory, Standpoint.path?, hrequire] at hs
          cases hs
        | directory =>
          simp only [requireDirectory, Standpoint.path?, hrequire, hrequire'] at hs ⊢
          exact ih hrest hs
    next hdot =>
    rw [if_neg (Ne.symm hpart)] at hs
    rw [if_neg hdot, if_neg (Ne.symm hpart)]
    exact ih hrest hs

/-- **A written path without a way up names a directory as long as it stands** and, if the path is
relative, as long as relative paths start where they did. -/
theorem find_of_way (hup : ".." ∉ parts s) (hs : find t s = .ok (p, .directory))
    (hdir : t'.get? p = some .directory)
    (hworking : ∀ q, t.working = ⟨q, 0⟩ → q <+: p → t'.working = t.working) :
    find t' s = .ok (p, .directory) := by
  obtain ⟨hresolve, hshort, -, hend⟩ := find_eq_ok_iff.mp hs
  refine find_eq_ok_iff.mpr ⟨?_, hshort, hdir, hend⟩
  unfold resolve at hresolve ⊢
  split at hresolve
  · cases hresolve
  split at hresolve
  · cases hresolve
  split at hresolve
  · cases hresolve
  · next hempty hnul hsize =>
    rw [if_neg hempty, if_neg hnul, if_neg hsize]
    -- Only a relative path depends on where it starts, and then the start lies above its end.
    have hstart : (if s.isAbsolute then .root else t'.working : Standpoint) =
        if s.isAbsolute then .root else t.working := by
      split
      · rfl
      · next habsolute =>
        rw [if_neg habsolute] at hresolve
        obtain ⟨q, hq, hprefix⟩ := prefix_of_follow hup hresolve
        exact hworking q hq hprefix
    rw [hstart]
    exact follow_of_way hup hresolve hdir

/-- Where nothing is found, nothing stands. -/
theorem get?_of_find_notFound (hs : resolve t s = .ok ⟨p, 0⟩)
    (hfind : find t s = .error .notFound) : t.get? p = none := by
  rw [find_of_resolve hs] at hfind
  cases hget : t.get? p with
  | none => rfl
  | some e =>
    obtain ⟨hshort, hlong⟩ := FileTree.require_of_get? hget
    by_cases hnames : p.HasShortNames
    · simp only [hshort hnames] at hfind
      split at hfind <;> cases hfind
    · simp only [hlong hnames] at hfind
      cases hfind

/-! ## Scripts with written paths -/

/-- A call that succeeds is made at the place that is named; one that fails changes nothing. -/
theorem of_callAt {c : Path → FileCall} {r : Except FileError Unit}
    (h : (callAt s c).run t = (r, t')) :
    (r = .ok () ∧ ∃ p, resolve t s = .ok ⟨p, 0⟩ ∧ t.run (c p) = .ok t') ∨
      (∃ e, r = .error e) ∧ t' = t := by
  rw [callAt, Script.run_bind, Script.run_see] at h
  rcases hs : resolve t s with e | ⟨p, _ | n⟩
  · simp only [hs, Script.run_pure, Prod.mk.injEq] at h
    exact .inr ⟨⟨e, h.1.symm⟩, h.2.symm⟩
  · simp only [hs, Standpoint.path?, Script.run_attempt] at h
    split at h
    · next hrun =>
      obtain ⟨rfl, rfl⟩ := Prod.mk.inj h
      exact .inl ⟨rfl, p, rfl, hrun⟩
    · obtain ⟨rfl, rfl⟩ := Prod.mk.inj h
      exact .inr ⟨⟨_, rfl⟩, rfl⟩
  · simp only [hs, Standpoint.path?, Script.run_pure, Prod.mk.injEq] at h
    exact .inr ⟨⟨_, h.1.symm⟩, h.2.symm⟩

/-- What is renamed was found, and a name with a slash at its end is for a directory. -/
theorem of_rename {target : WrittenPath} (h : (rename s target).run t = (.ok (), t')) :
    ∃ p e q, find t s = .ok (p, e) ∧ resolve t target = .ok ⟨q, 0⟩ ∧
      ¬ (e ≠ .directory ∧ target.endsInSlash = true) ∧ t.run (.rename p q) = .ok t' := by
  rw [rename, Script.run_bind, Script.run_see] at h
  cases hfind : find t s with
  | error e =>
    rw [hfind] at h
    cases h
  | ok x =>
    obtain ⟨p, e⟩ := x
    simp only [hfind] at h
    split at h
    · cases h
    split at h
    · cases h
    · next hend =>
      rcases of_callAt h with ⟨-, q, hq, hrun⟩ | ⟨⟨_, herror⟩, -⟩
      · exact ⟨p, e, q, rfl, hq, hend, hrun⟩
      · cases herror

theorem only_callAt {P : FileCall → Prop} {c : Path → FileCall} (h : ∀ p, P (c p)) :
    (callAt s c).Only P := by
  refine (Script.only_see _).bind fun found => ?_
  split
  · exact Script.only_pure _
  · split
    · exact Script.only_pure _
    · exact ⟨h _, fun _ => trivial⟩

/-- **To make directories changes nothing that was there.** -/
theorem grows_createDirectories (s : WrittenPath) (t : FileTree) :
    t.Grows ((createDirectories s).run t).2 := by
  have honly : (createDirectories s).Only fun c => ∃ p, c = .createDirectory p :=
    Script.only_createFrom fun d _ => only_callAt fun p => ⟨p, rfl⟩
  refine honly.run (I := t.Grows) ?_ (.refl t)
  rintro _ t₁ t₂ ⟨p, rfl⟩ hgrows hrun
  exact hgrows.trans (FileTree.grows_createDirectory hrun)

end WrittenPath

end AppRegistry
