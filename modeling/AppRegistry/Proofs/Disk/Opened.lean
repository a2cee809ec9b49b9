import AppRegistry.Proofs.Disk.Recovery

/-!
# Opened stores

Whatever stands below a directory, once a store has been opened there, no commit is under way and no
files of one are left (`Clean`, `Opened`).

Main results: `opened_of_openAt`, and `recoverIn_run_of_ok`, by which the order does not matter in
which recovery finds the files to remove. Nothing is assumed of the tree here, so a journal may even
name keys that no commit has touched.
-/

namespace AppRegistry.Disk

variable {root : Path} {F : Prop} {c c' : Contents} {entries : List JournalEntry}

/-- No commit is under way and none has left files, but an earlier one may have left a journal that
never came to its place. -/
structure AtRest (root : Path) (c : Contents) : Prop where
  no_staging : ∀ d, ¬ IsFile (c d stagingName)
  no_backup : ∀ d, ¬ IsFile (c d backupName)
  no_journal : ¬ IsFile (c [] journalName)
  sweepable : ∀ d, IsFile (c d journalStagingName) → (place root d journalStagingName).InLimits

theorem AtRest.sweepable_of_leftover (h : AtRest root c) {d : Path} {n : String}
    (hn : isLeftover n = true) (hf : IsFile (c d n)) : (place root d n).InLimits := by
  unfold isLeftover at hn
  simp only [Bool.or_eq_true, beq_iff_eq] at hn
  rcases hn with (rfl | rfl) | rfl
  · exact absurd hf (h.no_staging d)
  · exact absurd hf (h.no_backup d)
  · exact h.sweepable d hf

/-- A store as it is whenever it has been opened. -/
structure Opened (root : Path) (t : FileTree) : Prop where
  isDirectory : t.get? root = some .directory
  atRest : AtRest root (contents root t)
  inLimits : (journalPath root).InLimits
  no_journal : contents root t [] journalName = none

/-- Nothing is left of any commit. -/
structure Clean (c : Contents) : Prop where
  no_leftover : ∀ d n, isLeftover n = true → ¬ IsFile (c d n)
  no_journal : c [] journalName = none

theorem Clean.atRest (h : Clean c) : AtRest root c where
  no_staging d := h.no_leftover d _ (by decide)
  no_backup d := h.no_leftover d _ (by decide)
  no_journal := h.no_journal ▸ not_isFile_none
  sweepable d hf := absurd hf (h.no_leftover d _ (by decide))

/-! ## Empty directories -/

theorem atRest_of_no_file (h : ∀ d n, ¬ IsFile (c d n)) : AtRest root c where
  no_staging d := h d _
  no_backup d := h d _
  no_journal := h _ _
  sweepable d hf := absurd hf (h d _)

section Empty
variable {t : FileTree} (hempty : ∀ p, p ≠ [] → t.get? (root ++ p) = none)
include hempty

theorem contents_of_empty (d : Path) (n : String) : contents root t d n = none := by
  have hget : t.get? (place root d n) = none := by
    rw [place, List.append_assoc]
    exact hempty _ (by simp)
  unfold contents
  rw [hget]
  split <;> rfl

/-- An empty directory is as good as an opened store. -/
theorem opened_of_empty (hr : t.get? root = some .directory) (hl : (journalPath root).InLimits) :
    Opened root t where
  isDirectory := hr
  atRest := atRest_of_no_file fun d n => contents_of_empty hempty d n ▸ not_isFile_none
  inLimits := hl
  no_journal := contents_of_empty hempty _ _

end Empty

/-! ## Opening from any contents -/

theorem leads_restore_any (root : Path) (e : JournalEntry) (c : Contents) :
    Leads root F (fun _ => True) c (restore root e) fun _ _ => True := by
  unfold restore
  split
  · refine Leads.bind (leads_see trivial fun t _ hc _ => ?_)
    split
    · next hfile =>
      have hf := (isFile_place_iff (by decide)).mp hfile
      rw [hc] at hf
      exact leads_discard (leads_rename (by decide) (by decide) (by decide) hf.2 trivial
        (fun _ _ => ⟨trivial, trivial⟩) fun _ _ => trivial)
    · exact leads_pure trivial trivial
  · split
    · exact leads_discard (leads_removeIfPresent (by decide) trivial
        (fun _ _ => ⟨trivial, trivial⟩) (fun _ => trivial) fun _ _ => trivial)
    · exact leads_pure trivial trivial

/-- Rolling back entries of any kind leaves the root a directory. -/
theorem leads_rollBackEach_any (root : Path) (l : List JournalEntry) (c : Contents) :
    Leads root F (fun _ => True) c (rollBackEach root l) fun _ _ => True := by
  induction l generalizing c with
  | nil => exact leads_pure trivial trivial
  | cons e l ih =>
    unfold rollBackEach rollBackOne
    refine Leads.bind (Leads.bind ((leads_restore_any root e c).imp fun _ c₁ _ _ => ?_))
    refine Leads.bind (leads_discard (leads_removeIfPresent (by decide) trivial
      (fun _ _ => ⟨trivial, fun _ => ?_⟩) (fun _ _ => ?_) fun _ _ _ => ?_)) <;>
    exact leads_prune trivial fun _ => ih _

/-- Once an unfinished commit is rolled back, there is no journal. -/
theorem leads_rollBackUnfinished_any (root : Path) (c : Contents) :
    Leads root F (fun _ => True) c (rollBackUnfinished root).run fun r c' => r = .ok () →
      (journalPath root).InLimits ∧ c' [] journalName = none := by
  unfold rollBackUnfinished
  refine leads_bind_task (leads_lift (leads_see trivial fun t hr hc _ => ?_))
  split
  · next hread =>
    apply leads_pure_task trivial
    intro _
    obtain ⟨hl, hnone⟩ := inLimits_of_read_journal hr hread
    exact ⟨hl, hc ▸ hnone⟩
  · exact leads_throw trivial (nomatch ·)
  · next bytes hread =>
    split
    · exact leads_throw trivial (nomatch ·)
    · refine leads_bind_task (leads_lift ((leads_rollBackEach_any root _ _).imp fun _ c₁ _ _ => ?_))
      have hl := (FileTree.read_eq_ok_iff.mp hread).1
      unfold removeJournal
      rw [journalPath_eq] at hl ⊢
      refine leads_step (leads_removeIfPresent (by decide) trivial
        (fun _ _ => ⟨trivial, fun _ => ?_⟩) (fun hnone _ => ⟨hl, hnone⟩) fun _ _ => (nomatch ·))
      exact ⟨hl, Contents.set_self _ _ _ _⟩

/-- Once recovery has succeeded, nothing is left of any commit. -/
theorem leads_recover_any (root : Path) (c : Contents) :
    Leads root F (fun _ => True) c (recover root).run fun r c' => r = .ok () →
      (journalPath root).InLimits ∧ Clean c' := by
  unfold recover
  refine leads_bind_task ((leads_rollBackUnfinished_any root c).imp ?_)
  rintro (e | u) c₁ hr
  · exact (nomatch ·)
  obtain ⟨hl, hjournal⟩ := hr rfl
  intro _
  refine leads_bind_task (leads_lift (leads_see trivial fun t _ hc => fun _ => ?_))
  refine ((leads_sweep hc (.refl _)).mono id (fun _ _ => trivial)
    fun r c' ⟨hsweep, hgone, _⟩ hok => ?_)
  exact ⟨hl, hgone hok, by rw [hsweep.kept _ _ (by decide), hjournal]⟩

/-- **The order of the leftovers makes no difference.** Where recovery succeeds with one listing of
them, it succeeds with any other and leaves the same contents, whatever the tree was. -/
theorem recoverIn_run_of_ok {t : FileTree} {listing listing' : FileTree → List Path}
    (hlisting : ∀ t, (listing t).Perm (leftovers root t))
    (hlisting' : ∀ t, (listing' t).Perm (leftovers root t)) (hr : t.get? root = some .directory)
    (hok : ((recoverIn root listing).run.run t).1 = .ok ()) :
    ((recoverIn root listing').run.run t).1 = .ok () ∧
      contents root ((recoverIn root listing').run.run t).2 =
        contents root ((recoverIn root listing).run.run t).2 := by
  have hback := ((leads_rollBackUnfinished_any (F := False) root (contents root t)).meets hr).run
  rw [recoverIn_run] at hok ⊢
  rw [recoverIn_run]
  -- Both sweeps start from the tree that the rollback leaves.
  rcases hrun : (rollBackUnfinished root).run.run t with ⟨e | u, t₁⟩ <;> rw [hrun] at hok hback
  · exact nomatch hok
  have hdir := hback.1
  obtain ⟨-, hsweep, hgone, -⟩ := ((leads_sweep (F := False) rfl (hlisting t₁)).meets hdir).run
  obtain ⟨-, hsweep', hgone', hok'⟩ := ((leads_sweep (F := False) rfl (hlisting' t₁)).meets hdir).run
  have hlimits : ∀ d n, isLeftover n = true → IsFile (contents root t₁ d n) →
      (place root d n).InLimits := fun d n hn hf => by
    rcases hsweep d n with heq | ⟨-, hl, -, -⟩
    · exact absurd (heq ▸ hf) (hgone hok d n hn)
    · exact hl
  have hok' := hok' id hlimits
  exact ⟨hok', hsweep'.unique hsweep (hgone' hok') (hgone hok)⟩

theorem get?_of_find {w : WrittenPath} {t : FileTree} {p : Path} {e : Entry}
    (h : WrittenPath.find t w = .ok (p, e)) : t.get? p = some e := by
  unfold WrittenPath.find at h
  cases hresolve : WrittenPath.resolve t w with
  | error err => rw [hresolve] at h; cases h
  | ok here =>
    rw [hresolve] at h
    simp only [bind, Except.bind] at h
    split at h
    · cases h
    · split at h
      · cases h
      · next hrequire =>
        split at h
        · cases h
        · obtain ⟨rfl, rfl⟩ := Prod.mk.inj (Except.ok.inj h)
          exact (FileTree.require_eq_ok_iff.mp hrequire).2

/-- A store is opened where recovery succeeds at the directory that the written path names. -/
theorem of_openAt_ok {w : WrittenPath} {t t' : FileTree} {d : Disk}
    (h : (openAt w).run.run t = (.ok d, t')) :
    WrittenPath.find t w = .ok (d.root, .directory) ∧ d.poisoned = false ∧
      (recover d.root).run.run t = (.ok (), t') := by
  rw [openAt_run] at h
  simp only [Script.run] at h
  split at h
  · cases h
  · cases h
  · next root hfind =>
    rw [ExceptT.run_bind, Script.run_bind] at h
    rcases hrecover : (recover root).run.run t with ⟨e | u, t₁⟩ <;> rw [hrecover] at h
    · cases h
    · obtain ⟨hd, rfl⟩ := Prod.mk.inj h
      obtain rfl := Except.ok.inj hd
      exact ⟨hfind, rfl, hrecover⟩

theorem clean_of_openAt {w : WrittenPath} {t t' : FileTree} {d : Disk}
    (h : (openAt w).run.run t = (.ok d, t')) : t'.get? d.root = some .directory ∧
      (journalPath d.root).InLimits ∧ Clean (contents d.root t') := by
  obtain ⟨hfind, -, hrecover⟩ := of_openAt_ok h
  have hleads := ((leads_recover_any (F := False) d.root (contents d.root t)).meets
    (get?_of_find hfind)).run
  rw [hrecover] at hleads
  exact ⟨hleads.1, hleads.2 rfl⟩

/-- **Every store that has been opened is at rest**, whatever was found at its root. -/
theorem opened_of_openAt {w : WrittenPath} {t t' : FileTree} {d : Disk}
    (h : (openAt w).run.run t = (.ok d, t')) : Opened d.root t' := by
  obtain ⟨hr, hl, hclean⟩ := clean_of_openAt h
  exact ⟨hr, hclean.atRest, hl, hclean.no_journal⟩

end AppRegistry.Disk
