import AppRegistry.Proofs.Disk.Success

/-!
# Stores without empty directories

A commit makes the directories of the records it writes and removes those that it leaves empty. The
contents of a store do not show them, so here the tree itself is followed through a commit.

**Theorem (`Neat.commit`).** A commit that succeeds leads from a tidy store without empty
directories to one.

In between there is one directory at a time that may be empty (`FullBut`): that of a key whose last
file was removed, and then its parent, and so on up to the root. `Neat.prune` is that walk.
-/

namespace AppRegistry.Disk

variable {root : Path} {t t' : FileTree} {p q : Path} {k : Key} {e : JournalEntry}
  {L : List (Key × Option Json)} {entries l : List JournalEntry}

/-! ## Directories that are not empty -/

/-- No directory below the root is empty, except that the one at `q` may be. -/
def FullBut (root q : Path) (t : FileTree) : Prop :=
  ∀ p, p ≠ [] → p ≠ q → t.get? (root ++ p) = some .directory → ∃ n, t.get? (place root p n) ≠ none

theorem FullBut.mono (h : FullBut root [] t) (q : Path) : FullBut root q t := fun p hp _ =>
  h p hp hp

/-- Wherever something stood in a directory, something still does, and no directory is new. -/
theorem FullBut.of_kept (h : FullBut root q t)
    (hdir : ∀ p, t'.get? p = some .directory → t.get? p = some .directory)
    (hkept : ∀ p n, p ≠ [] → t.get? (place root p n) ≠ none →
      ∃ m, t'.get? (place root p m) ≠ none) : FullBut root q t' := by
  intro p hp hpq hd
  obtain ⟨n, hn⟩ := h p hp hpq (hdir _ hd)
  exact hkept p n hp hn

/-- When an entry is removed, its directory may be empty. -/
theorem FullBut.remove {n : String} (h : FullBut root (q ++ [n]) t)
    (hget : ∀ r, t'.get? r = if place root q n = r then none else t.get? r) :
    FullBut root q t' := by
  intro p hp hpq hd
  rw [hget] at hd
  split at hd
  · cases hd
  · next hne =>
    obtain ⟨m, hm⟩ := h p hp (fun heq => hne (by rw [heq, place, List.append_assoc])) hd
    refine ⟨m, ?_⟩
    rwa [hget, if_neg fun heq => hpq (place_inj.mp heq).1.symm]

/-- A directory in which something stands is not the exception. -/
theorem FullBut.of_child {n : String} (h : FullBut root q t)
    (hchild : t.get? (place root q n) ≠ none) : FullBut root [] t := by
  intro p hp _ hd
  by_cases hpq : p = q
  · exact ⟨n, hpq ▸ hchild⟩
  · exact h p hp hpq hd

/-- A tidy store without empty directories and without a journal that is only drafted. -/
structure Neat (root q : Path) (t : FileTree) : Prop where
  tidy : Stored root Tidy t
  full : FullBut root q t
  no_draft : ∀ d, t.get? (place root d journalStagingName) = none

theorem Neat.mono (h : Neat root [] t) (q : Path) : Neat root q t :=
  ⟨h.tidy, h.full.mono q, h.no_draft⟩

/-! ## Preparing -/

theorem writeStaging_get? (h : Stored root Tidy t) {j : Json}
    (hrun : (writeStaging root k j).run.run t = (.ok (), t')) (r : Path) :
    t'.get? r = if stagingPath root k = r then some (.file (recordBytes j))
      else if r <+: directory root k then some .directory else t.get? r := by
  obtain ⟨u, t₁, hcreate, hwrite⟩ := of_run_bind_ok hrun
  obtain ⟨hfits, hwrite⟩ := of_run_make_ok (of_run_step_ok hwrite)
  obtain ⟨hshort, -, hget⟩ := FileTree.get?_of_write hwrite
  have hl : (stagingPath root k).InLimits := ⟨hfits _ (by simp [FileCall.paths]), hshort⟩
  obtain ⟨t₂, hcreate', hget₁⟩ := Script.createDirectories_run (Path.InLimits.of_append hl)
    fun q hq => Tidy.free h hq
  rw [of_run_step_ok hcreate] at hcreate'
  obtain rfl := (Prod.mk.inj hcreate').2
  rw [hget, hget₁]

/-- Each directory on the way to a staging file holds the next one or the file. -/
theorem FullBut.writeStaging (h : FullBut root [] t) (htidy : Stored root Tidy t) {j : Json}
    (hrun : (writeStaging root k j).run.run t = (.ok (), t')) : FullBut root [] t' := by
  have hget := writeStaging_get? htidy hrun
  intro p hp _ hd
  by_cases hway : root ++ p <+: directory root k
  · obtain ⟨rest, hrest⟩ := (List.prefix_append_right_inj root).mp hway
    -- The way to the staging file ends in this directory or goes on in it.
    cases rest with
    | nil =>
      refine ⟨stagingName, ?_⟩
      rw [hget, if_pos]
      · simp
      · rw [stagingPath_eq, ← hrest, List.append_nil]
    | cons n rest =>
      have hnext : place root p n <+: directory root k := by
        rw [directory, ← hrest, place, List.append_assoc]
        exact (List.prefix_append_right_inj root).mpr ⟨rest, by simp⟩
      refine ⟨n, ?_⟩
      rw [hget, if_pos hnext]
      split <;> simp
  · rw [hget, if_neg hway] at hd
    split at hd
    · cases hd
    · obtain ⟨n, hn⟩ := h p hp hp hd
      refine ⟨n, ?_⟩
      rw [hget]
      split
      · simp
      · split
        · simp
        · exact hn

theorem Neat.prepareOne (h : Neat root [] t) {v : Option Json} {entry : Option JournalEntry}
    (hrun : (prepareOne root k v).run.run t = (.ok entry, t')) : Neat root [] t' := by
  have htidy : Stored root Tidy t' := by
    have := stored_tidy_run ((only_prepareOne k v).mono fun _ h => h.1) h.tidy
    rwa [hrun] at this
  unfold Disk.prepareOne at hrun
  obtain ⟨replaces, t₁, hsee, hrest⟩ := of_run_bind_ok hrun
  obtain rfl : t = t₁ := (Prod.mk.inj hsee).2
  cases v with
  | none =>
    obtain rfl := (Prod.mk.inj hrest).2
    exact h
  | some j =>
    obtain ⟨u, t₂, hwrite, hpure⟩ := of_run_bind_ok hrest
    obtain rfl := (Prod.mk.inj hpure).2
    have hne : ∀ d, stagingPath root k ≠ place root d journalStagingName := fun d heq =>
      absurd (place_inj.mp heq).2 (by decide)
    refine ⟨htidy, h.full.writeStaging h.tidy hwrite, fun d => ?_⟩
    rw [writeStaging_get? h.tidy hwrite, if_neg (hne d),
      if_neg fun hway => place_hidden_ne (by decide) hway rfl]
    exact h.no_draft d

theorem Neat.prepare (h : Neat root [] t)
    (hrun : (prepare root L).run.run t = (.ok entries, t')) : Neat root [] t' := by
  induction L generalizing t entries with
  | nil =>
    obtain rfl := (Prod.mk.inj hrun).2
    exact h
  | cons x L ih =>
    obtain ⟨k, v⟩ := x
    unfold Disk.prepare at hrun
    obtain ⟨entry, t₁, hone, hrest⟩ := of_run_bind_ok hrun
    obtain ⟨others, t₂, hothers, hpure⟩ := of_run_bind_ok hrest
    obtain rfl := (Prod.mk.inj hpure).2
    exact ih (h.prepareOne hone) hothers

/-! ## The journal and the entries -/

/-- The journal is drafted and put in its place. -/
theorem Neat.writeJournal (h : Neat root [] t)
    (hrun : (writeJournal root entries).run.run t = (.ok (), t')) : Neat root [] t' := by
  have htidy : Stored root Tidy t' := by
    have := stored_tidy_run ((only_writeJournal entries).mono fun _ h => h.1) h.tidy
    rwa [hrun] at this
  unfold Disk.writeJournal at hrun
  rw [journalStagingPath_eq, journalPath_eq] at hrun
  obtain ⟨u, t₁, hdraft, hrename⟩ := of_run_bind_ok hrun
  obtain ⟨-, hdraft⟩ := of_run_make_ok (of_run_step_ok hdraft)
  obtain ⟨-, hrename⟩ := of_run_make_ok (of_run_step_ok hrename)
  obtain ⟨-, -, hget₁⟩ := FileTree.get?_of_write hdraft
  have hne : place root [] journalStagingName ≠ place root [] journalName := fun heq =>
    absurd (place_inj.mp heq).2 (by decide)
  obtain ⟨-, -, hget⟩ := FileTree.get?_of_rename hrename (by rw [hget₁, if_pos rfl]) hne
  refine ⟨htidy, h.full.of_kept (fun p hd => ?_) fun p n hp hn => ⟨n, ?_⟩, fun d => ?_⟩
  · rw [hget, hget₁] at hd
    split at hd
    · cases hd
    · split at hd
      · cases hd
      · exact hd
  · have hroot : ∀ m, place root [] m ≠ place root p n := fun m heq =>
      hp (place_inj.mp heq).1.symm
    rwa [hget, hget₁, if_neg (hroot _), if_neg (hroot _), if_neg (hroot _)]
  · rw [hget, hget₁, if_neg fun heq => absurd (place_inj.mp heq).2 (by decide)]
    split
    · rfl
    · exact h.no_draft d

/-- A call that gives a file another name in its directory, though not that of a draft, or removes a
file at the root. -/
def Shelves (root : Path) : FileCall → Prop
  | .rename p q => ∃ d n m, isHidden n = true ∧ isHidden m = true ∧ n ≠ m ∧
      m ≠ journalStagingName ∧ p = place root d n ∧ q = place root d m
  | .removeFile p => ∃ n, isHidden n = true ∧ p = place root [] n
  | _ => False

theorem Neat.call {c : FileCall} (h : Neat root [] t) (hc : Shelves root c)
    (hrun : t.run c = .ok t') : Neat root [] t' := by
  cases c with
  | createDirectory | write | removeDirectory => exact hc.elim
  | removeFile p =>
    obtain ⟨n, hn, rfl⟩ := hc
    obtain ⟨-, -, hget⟩ := FileTree.get?_of_removeFile hrun
    have hown : Own root (.removeFile (place root [] n)) := ⟨[], n, hn, rfl⟩
    refine ⟨stored_tidy_call hown h.tidy hrun, ?_, fun d => ?_⟩
    · exact (h.full.mono _).remove hget
    · rw [hget]
      split
      · rfl
      · exact h.no_draft d
  | rename p q =>
    obtain ⟨d, n, m, hn, hm, hnm, hdraft, rfl, rfl⟩ := hc
    have htidy : Stored root Tidy t' := stored_tidy_call (own_rename hn hm hnm).1 h.tidy hrun
    obtain ⟨b, hb⟩ : ∃ b, t.get? (place root d n) = some (.file b) := by
      obtain ⟨e, he⟩ := FileTree.get?_source_of_rename hrun
      cases e with
      | file b => exact ⟨b, he⟩
      | directory => exact absurd he (Tidy.not_directory h.tidy hn)
    obtain ⟨-, -, hget⟩ := FileTree.get?_of_rename hrun hb (by simp [hnm])
    refine ⟨htidy, h.full.of_kept (fun p hd => ?_) fun p x _ hx => ?_, fun d' => ?_⟩
    · rw [hget] at hd
      split at hd
      · cases hd
      · split at hd
        · cases hd
        · exact hd
    · -- The directory of the file keeps it under its new name, every other one keeps what it had.
      by_cases hpd : p = d
      · subst hpd
        exact ⟨m, by simp [hget]⟩
      · refine ⟨x, ?_⟩
        rwa [hget, if_neg fun heq => hpd (place_inj.mp heq).1.symm,
          if_neg fun heq => hpd (place_inj.mp heq).1.symm]
    · rw [hget, if_neg fun heq => hdraft (place_inj.mp heq).2]
      split
      · rfl
      · exact h.no_draft d'

theorem shelves_rename {d : Path} {n m : String} (hn : isHidden n = true) (hm : isHidden m = true)
    (hnm : n ≠ m) (hdraft : m ≠ journalStagingName) :
    Shelves root (.rename (place root d n) (place root d m)) :=
  ⟨d, n, m, hn, hm, hnm, hdraft, rfl, rfl⟩

theorem only_land (entries : List JournalEntry) : (land root entries).run.Only (Shelves root) := by
  have hone : ∀ e, (applyOne root e).run.Only (Shelves root) := by
    intro e
    rw [applyOne_eq]
    unfold moveAside putInPlace
    refine only_bind_task ?_ fun _ => ?_ <;> split
    · exact only_step (Script.only_make (shelves_rename (by decide) (by decide) (by decide)
        (by decide)))
    · exact only_pure_task _
    · exact only_step (Script.only_make (shelves_rename (by decide) (by decide) (by decide)
        (by decide)))
    · exact only_pure_task _
  have heach : (applyEach root entries).run.Only (Shelves root) := by
    induction entries with
    | nil => exact only_pure_task _
    | cons e l ih =>
      unfold applyEach
      exact only_bind_task (hone e) fun _ => ih
  unfold land removeJournal
  refine only_bind_task heach fun _ => only_step (only_removeIfPresent ?_)
  exact ⟨journalName, by decide, journalPath_eq⟩

theorem Neat.land (h : Neat root [] t) (entries : List JournalEntry) :
    Neat root [] ((land root entries).run.run t).2 :=
  (only_land entries).run (fun _ _ _ hc h hrun => h.call hc hrun) h

/-! ## Pruning -/

/-- A directory below the root and those it lies in, deepest first. -/
def upward (root p : Path) : List Path := (Script.ancestors p).map (root ++ ·)

theorem upward_concat (root p : Path) (n : String) :
    upward root (p ++ [n]) = place root p n :: upward root p := by
  unfold upward
  rw [Script.ancestors_concat, List.map_cons, place, List.append_assoc]

theorem keyDirectories_eq (root : Path) (k : Key) :
    keyDirectories root k = upward root k.components := by
  unfold keyDirectories upward Script.ancestors
  rw [List.map_map]
  rfl

/-- The walk goes on from a directory that is removed or missing. -/
theorem run_pruneEach_cons (p : Path) (l : List Path) (t : FileTree) :
    (pruneEach (p :: l)).run t =
      if p.fits then
        match t.run (.removeDirectory p) with
        | .ok t' => (pruneEach l).run t'
        | .error .notFound => (pruneEach l).run t
        | .error _ => ((), t)
      else ((), t) := by
  rw [pruneEach, Script.run_bind, Script.make]
  by_cases hfits : p.fits = true
  · rw [if_pos (by simpa [FileCall.paths] using hfits), if_pos hfits, Script.run_attempt]
    rcases t.run (.removeDirectory p) with (_ | _) | t' <;> rfl
  · rw [if_neg (by simpa [FileCall.paths] using hfits), if_neg hfits]
    rfl

/-- A directory that cannot be removed is not empty. -/
theorem FullBut.of_not_removed {n : String} {err : FileError} (h : FullBut root (p ++ [n]) t)
    (hl : (place root p n).InLimits)
    (hrun : t.run (.removeDirectory (place root p n)) = .error err) : FullBut root [] t := by
  have hplace : place root p n = root ++ (p ++ [n]) := List.append_assoc _ _ _
  intro p' hp' _ hd
  -- The directory at the exception was not empty, or it would have been removed.
  by_cases hlast : p' = p ++ [n]
  · subst hlast
    by_contra hempty
    have hleaf : t.isLeaf (place root p n) = true := by
      refine FileTree.isLeaf_iff.mpr fun m => ?_
      by_contra hm
      exact hempty ⟨m, by rwa [hplace] at hm⟩
    rw [← hplace] at hd
    obtain ⟨t', ht'⟩ := FileTree.removeDirectory_isOk hl.2 hd hleaf (by simp [place])
    cases hrun.symm.trans ht'
  · exact h p' hp' hlast hd

/-- The walk stops where a directory is not empty, and then none is. -/
theorem FullBut.prune (h : FullBut root p t) (hl : (root ++ p).InLimits) :
    FullBut root [] ((pruneEach (upward root p)).run t).2 := by
  -- The exception moves up with the walk: what is removed may leave its parent empty.
  induction p using List.reverseRecOn generalizing t with
  | nil => exact h
  | append_singleton p n ih =>
    have hlast : (place root p n).InLimits := by rwa [place, List.append_assoc]
    have hlimit : (root ++ p).InLimits := Path.InLimits.of_append hlast
    have hfits : ∀ q ∈ (FileCall.removeDirectory (place root p n)).paths, q.fits = true := by
      simpa [FileCall.paths] using hlast.1
    rw [upward_concat, pruneEach, Script.run_bind]
    rcases run_make (.removeDirectory (place root p n)) t with
      ⟨t', hrun, -, hcall⟩ | ⟨err, hrun, hcall⟩ <;> rw [hrun]
    · obtain ⟨-, -, -, hget⟩ := FileTree.get?_of_removeDirectory hcall
      exact ih (h.remove hget) hlimit
    · have hfull := h.of_not_removed hlast (hcall hfits)
      cases err with
      | notFound => exact ih (hfull.mono p) hlimit
      | notADirectory | isADirectory | alreadyExists | notEmpty | nameTooLong | invalidName
        | intoItself => exact hfull

theorem contents_prune (hr : t.get? root = some .directory) (k : Key) :
    contents root ((Disk.prune root k).run t).2 = contents root t := by
  have hleads : Leads root False (fun _ => True) (contents root t) (Disk.prune root k) fun _ c =>
      c = contents root t := leads_prune trivial rfl
  exact (hleads.meets hr).run.2

theorem Neat.prune (h : Neat root k.components t) (hl : (directory root k).InLimits) :
    Neat root [] ((Disk.prune root k).run t).2 where
  tidy := stored_tidy_run (only_prune_own k) h.tidy
  full := by
    unfold Disk.prune
    rw [keyDirectories_eq]
    exact h.full.prune hl
  no_draft d := by
    have hdraft := h.no_draft d
    rw [← contents_of_hidden (by decide)] at hdraft ⊢
    rw [contents_prune h.tidy.1, hdraft]

/-! ## Dropping the backups -/

theorem run_discard_removeIfPresent (p : Path) (t : FileTree) :
    ((discard (Script.removeIfPresent p) : Script Unit).run t).2 =
      ((Script.make (.removeFile p)).run t).2 := by
  rw [removeIfPresent_eq]
  show (Script.run ((fun _ => ()) <$> orMissing <$> Script.make (.removeFile p)) t).2 = _
  rw [Script.run_map, Script.run_map]

/-- Without its backup the directory of a key may be empty. -/
theorem Neat.dropBackup (h : Neat root [] t) (k : Key) :
    ∃ t', (discard (Script.removeIfPresent (backupPath root k)) : Script Unit).run t = ((), t') ∧
      Neat root k.components t' ∧
      ∀ d, t'.get? (place root d recordName) = t.get? (place root d recordName) := by
  refine ⟨_, Prod.ext rfl rfl, ?_⟩
  have htidy : Stored root Tidy ((discard (Script.removeIfPresent
      (place root k.components backupName)) : Script Unit).run t).2 :=
    stored_tidy_run (only_removeHidden (by decide)) h.tidy
  rw [run_discard_removeIfPresent] at htidy
  rw [backupPath_eq, run_discard_removeIfPresent]
  rcases run_make (.removeFile (place root k.components backupName)) t with
    ⟨t', hrun, -, hcall⟩ | ⟨err, hrun, -⟩
  · rw [hrun] at htidy ⊢
    obtain ⟨-, -, hget⟩ := FileTree.get?_of_removeFile hcall
    refine ⟨⟨htidy, (h.full.mono _).remove hget, fun d => ?_⟩, fun d => ?_⟩
    · rw [hget, if_neg fun heq => absurd (place_inj.mp heq).2 (by decide)]
      exact h.no_draft d
    · rw [hget, if_neg fun heq => absurd (place_inj.mp heq).2 (by decide)]
  · rw [hrun]
    exact ⟨h.mono _, fun _ => rfl⟩

/-- A key that was written has its record, and one that was deleted is pruned. -/
theorem Neat.finish (h : Neat root [] t)
    (hwrite : ∀ e ∈ l, e.write = true → t.get? (recordPath root e.key) ≠ none)
    (hdelete : ∀ e ∈ l, e.write = false → (directory root e.key).InLimits) :
    Neat root [] ((Disk.finish root l).run t).2 := by
  induction l generalizing t with
  | nil => exact h
  | cons e l ih =>
    obtain ⟨t₁, hdrop, hneat₁, hrecords₁⟩ : ∃ t₁,
        (if e.replaces then discard (Script.removeIfPresent (backupPath root e.key))
          else pure () : Script Unit).run t = ((), t₁) ∧ Neat root e.key.components t₁ ∧
        ∀ d, t₁.get? (place root d recordName) = t.get? (place root d recordName) := by
      split
      · exact h.dropBackup e.key
      · exact ⟨t, rfl, h.mono _, fun _ => rfl⟩
    obtain ⟨t₂, hprune, hneat₂, hrecords₂⟩ : ∃ t₂,
        (if !e.write then Disk.prune root e.key else pure () : Script Unit).run t₁ = ((), t₂) ∧
        Neat root [] t₂ ∧
        ∀ d, t₂.get? (place root d recordName) = t₁.get? (place root d recordName) := by
      by_cases hw : e.write = true
      · refine ⟨t₁, by simp [hw], ⟨hneat₁.tidy, ?_, hneat₁.no_draft⟩, fun _ => rfl⟩
        refine hneat₁.full.of_child (n := recordName) ?_
        rw [hrecords₁]
        exact hwrite e List.mem_cons_self hw
      · have hw : e.write = false := by simpa using hw
        refine ⟨_, by simp [hw], hneat₁.prune (hdelete e List.mem_cons_self hw), fun d => ?_⟩
        rw [← contents_of_hidden (by decide), ← contents_of_hidden (by decide),
          contents_prune hneat₁.tidy.1]
    rw [finish_cons, Script.run_bind, hdrop, Script.run_bind, hprune]
    -- Dropping backups and pruning leave the records of the other keys in place.
    refine ih hneat₂ (fun e' he' hw => ?_) fun e' he' => hdelete e' (List.mem_cons_of_mem _ he')
    rw [recordPath_eq, hrecords₂, hrecords₁]
    exact hwrite e' (List.mem_cons_of_mem _ he') hw

/-! ## Committing -/

/-- An attempt that lands has taken its phases one after another. -/
theorem Neat.attempt (h : Neat root [] t) (hrest : AtRest root (contents root t))
    (hL : (L.map (·.1)).Nodup) (hlanded : ((attempt root L).run t).1 = .landed entries) :
    Neat root [] ((attempt root L).run t).2 ∧
      entries = L.filterMap (planned root (contents root t)) := by
  have hplanned := ((leads_prepare_all (F := False) (hrest.staging L) hL).meets h.tidy.1).run.2.2
  unfold Disk.attempt at hlanded ⊢
  -- Every phase must have succeeded, so each is followed in turn and the failures are dismissed.
  rw [Script.run_bind] at hlanded ⊢
  rcases hprepare : (Disk.prepare root L).run.run t with ⟨err | (_ | ⟨e, l⟩), t₁⟩ <;>
    simp only [hprepare] at hlanded hplanned ⊢
  · exact nomatch hlanded
  · obtain rfl := Progress.landed.inj hlanded
    exact ⟨h.prepare hprepare, (hplanned _ rfl).1⟩
  · rw [Script.run_bind] at hlanded ⊢
    rcases hwrite : (Disk.writeJournal root (e :: l)).run.run t₁ with ⟨err | u, t₂⟩ <;>
      simp only [hwrite] at hlanded ⊢
    · exact nomatch hlanded
    · rw [Script.run_bind] at hlanded ⊢
      have hneat := ((h.prepare hprepare).writeJournal hwrite).land (e :: l)
      rcases hland : (Disk.land root (e :: l)).run.run t₂ with ⟨err | u, t₃⟩ <;>
        simp only [hland] at hlanded hneat ⊢
      · exact nomatch hlanded
      · obtain rfl := Progress.landed.inj hlanded
        exact ⟨hneat, (hplanned _ rfl).1⟩

/-- **A commit leaves no empty directory.** -/
theorem Neat.commit {staged : Changes} (h : Neat root [] t)
    (hrest : AtRest root (contents root t)) (hok : ((commit root staged).run t).1 = .ok ()) :
    Neat root [] ((commit root staged).run t).2 := by
  have hL := nodup_keys staged
  obtain ⟨⟨entries, hlanded⟩, -, -⟩ := commit_run h.tidy.1 hrest hok
  obtain ⟨hneat, hplanned⟩ := h.attempt hrest hL hlanded
  obtain ⟨-, hreached⟩ := ((leads_attempt (F := False) hrest hL).meets h.tidy.1).run
  rw [hlanded] at hreached
  rw [commit_eq, Script.run_bind, hlanded, cleanUp, Script.run_bind, Script.run_pure]
  refine hneat.finish (fun e he hw => ?_) fun e he hw => ?_ <;>
    rw [hplanned, mem_planned_iff] at he <;> obtain ⟨hor, hrep, v, hmem, hv⟩ := he
  · rw [recordPath_eq, ← contents_of_hidden (by decide), hreached.settled.kept _ _ (by decide),
      committed_of_mem hL hmem]
    cases v with
    | none => cases hw.symm.trans hv
    | some j => simp [changed]
  · have hreplaces : replaced root (contents root t) e.key = true :=
      hrep ▸ hor.resolve_left (by simp [hw])
    exact Path.InLimits.of_append (replaced_iff.mp hreplaces).1

end AppRegistry.Disk
