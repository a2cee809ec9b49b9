import AppRegistry.Proofs.Disk.Backups
import AppRegistry.Proofs.Disk.Confined
import AppRegistry.Proofs.Files.Growth
import Mathlib.Data.Prod.Basic

/-!
# Recovering again

**Theorem (`recovery_idempotent`).** A store that was opened has no leftover file and no journal,
and to open it again changes nothing. To roll back a journal with distinct keys a second time
changes nothing either.

Undoing an entry ends where there is nothing more to do for its key. Its files are as undoing them
would leave them (`Spent`), and the walk up from its directory meets no empty directory
that it could remove (`Pruned`). The first is kept by the entries that come after because they have
other keys. The second is kept although their walks may empty a directory on the way to this key:
such a directory lies on their own way too, and they remove it (`Loses.pruned`).
-/

namespace AppRegistry.Disk

variable {root q r : Path} {k : Key} {t t' t₁ t₂ : FileTree} {c c' : Contents} {e : JournalEntry}
  {l entries : List JournalEntry}

/-! ## Walks that remove nothing -/

/-- The walk up from the directory at `q` comes to the directory at `p` if nothing stands there. A
name that is too long stops the walk at the directory that would hold it. -/
structure Reaches (root q p : Path) : Prop where
  onTheWay : p <+: q
  fits : (root ++ q).fits = true
  short : Path.HasShortNames (root ++ q.take (p.length + 1))

/-- The walk up from the directory at `q` comes to an empty directory at `p` and removes it. -/
structure Prunable (root q : Path) (t : FileTree) (p : Path) : Prop extends Reaches root q p where
  ne_nil : p ≠ []
  isDirectory : t.get? (root ++ p) = some .directory
  isLeaf : t.isLeaf (root ++ p) = true

/-- The walk up from the directory at `q` removes nothing. -/
def Pruned (root q : Path) (t : FileTree) : Prop := ∀ p, ¬ Prunable root q t p

/-- The part of a way up to the next directory. -/
theorem take_next {p : Path} {n : String} (h : p ++ [n] <+: q) :
    q.take (p.length + 1) = p ++ [n] := by
  have := List.prefix_iff_eq_take.mp h
  rwa [List.length_append, List.length_singleton, eq_comm] at this

namespace Prunable

variable {p : Path}

theorem hasShortNames (h : Prunable root q t p) : Path.HasShortNames (root ++ p) := by
  have hp : p <+: q.take (p.length + 1) := List.prefix_take_iff.mpr ⟨h.onTheWay, by omega⟩
  exact fun n hn => h.short n (((List.prefix_append_right_inj root).mpr hp).subset hn)

theorem removeDirectory (h : Prunable root q t p) :
    ∃ t', t.run (.removeDirectory (root ++ p)) = .ok t' :=
  FileTree.removeDirectory_isOk h.hasShortNames h.isDirectory h.isLeaf (by simp [h.ne_nil])

/-- On its way to an empty directory the walk finds the deeper directories missing. -/
theorem removeDirectory_deeper (h : Prunable root q t p) (hr : r <+: q) (hp : p <+: r)
    (hne : p ≠ r) : t.run (.removeDirectory (root ++ r)) = .error .notFound := by
  obtain ⟨rest, rfl⟩ := hp
  obtain ⟨n, rest, rfl⟩ : ∃ n rest', rest = n :: rest' :=
    List.exists_cons_of_ne_nil fun hnil => hne (by simp [hnil])
  have hnext : p ++ [n] <+: q := List.IsPrefix.trans ⟨rest, by simp⟩ hr
  have hname : n.utf8ByteSize ≤ FileTree.longestName := by
    refine h.short n ?_
    rw [take_next hnext]
    simp
  have hnone : t.get? (root ++ p ++ [n]) = none := FileTree.isLeaf_iff.mp h.isLeaf n
  have hslot : t.slot (root ++ (p ++ n :: rest)) = t.slotFrom (root ++ p ++ [n]) rest := by
    rw [← List.append_assoc, FileTree.slot,
      (FileTree.slotFrom_append (p := root ++ p) [] h.isDirectory).1 h.hasShortNames,
      List.nil_append, FileTree.slotFrom, h.isDirectory]
    simp only
    rw [if_neg (by omega)]
  have hrequire : t.require (root ++ (p ++ n :: rest)) = .error .notFound := by
    unfold FileTree.require
    rw [hslot]
    cases rest <;> simp only [FileTree.slotFrom, hnone]
  simp only [FileTree.run, FileTree.removeDirectory, hrequire]

end Prunable

/-- A directory that is found missing has a name that is not too long. -/
theorem hasShortNames_of_notFound {p : Path} {n : String} (hdir : t.get? p = some .directory)
    (hfits : Path.fits (p ++ [n]) = true)
    (hrun : t.run (.removeDirectory (p ++ [n])) = .error .notFound) :
    Path.HasShortNames (p ++ [n]) := by
  refine (FileTree.of_find_eq_notFound hdir ?_).1.2
  rw [FileTree.find_of_fits hfits]
  simp only [FileTree.run, FileTree.removeDirectory] at hrun
  split at hrun
  · next hrequire => rw [hrequire, Except.error.inj hrun]
  · cases hrun
  · split at hrun <;> cases hrun

/-- Nothing is left to remove above the directory at which the walk has arrived, if there was
nothing below it. -/
theorem pruned_of_walk (hr : r <+: q) (hbelow : ∀ p, Prunable root q t p → p <+: r) :
    Pruned root q ((pruneEach (upward root r)).run t).2 := by
  -- The walk goes up, so the induction takes the deepest directory off the end of the path.
  induction r using List.reverseRecOn generalizing t with
  | nil => exact fun p hp => hp.ne_nil (List.prefix_nil.mp (hbelow p hp))
  | append_singleton r n ih =>
    have hr' : r <+: q := (List.prefix_append r [n]).trans hr
    have hplace : place root r n = root ++ (r ++ [n]) := List.append_assoc _ _ _
    have hstrict : ∀ p, Prunable root q t p → p ≠ r ++ [n] → p <+: r := fun p hp hne =>
      (List.prefix_concat_iff.mp (hbelow p hp)).resolve_left hne
    rw [upward_concat, run_pruneEach_cons, hplace]
    split
    · cases hrun : t.run (.removeDirectory (root ++ (r ++ [n]))) with
      | ok t' =>
        obtain ⟨-, -, -, hget⟩ := FileTree.get?_of_removeDirectory hrun
        refine ih hr' fun p hp => ?_
        -- At the removed directory and below it nothing stands any more.
        rcases List.prefix_or_prefix_of_prefix hp.onTheWay hr with hpr | hpr
        · refine (List.prefix_concat_iff.mp hpr).resolve_left ?_
          rintro rfl
          have := hp.isDirectory
          rw [hget, if_pos rfl] at this
          cases this
        · have := FileTree.get?_directory_above hp.isDirectory
            ((List.prefix_append_right_inj root).mpr hpr)
          rw [hget, if_pos rfl] at this
          cases this
      | error err =>
        have hne : ∀ p, Prunable root q t p → p ≠ r ++ [n] := by
          rintro p hp rfl
          obtain ⟨t', ht'⟩ := hp.removeDirectory
          cases hrun.symm.trans ht'
        by_cases herr : err = .notFound
        · subst herr
          exact ih hr' fun p hp => hstrict p hp (hne p hp)
        · -- The walk stops here, and a prunable directory above would have made it go on.
          have hstop : Pruned root q t := fun p hp => herr (Except.error.inj
            (hrun.symm.trans (hp.removeDirectory_deeper hr (hbelow p hp) (hne p hp))))
          cases err with
          | notFound => exact absurd rfl herr
          | notADirectory | isADirectory | alreadyExists | notEmpty | nameTooLong | invalidName
            | intoItself => exact hstop
    · next hfits =>
      intro p hp
      obtain ⟨rest, rfl⟩ := hr
      have := hp.fits
      rw [← List.append_assoc] at this
      exact hfits (Path.fits_of_append this)

/-- After a walk there is nothing left that another walk could remove. -/
theorem pruned_prune (k : Key) : Pruned root k.components ((prune root k).run t).2 := by
  unfold prune
  rw [keyDirectories_eq]
  exact pruned_of_walk List.prefix_rfl fun p hp => hp.onTheWay

theorem run_walk_of_pruned (h : Pruned root q t) (hr : r <+: q)
    (hway : r = q ∨ (root ++ q).fits = true ∧ ∀ n, r ++ [n] <+: q →
      t.get? (root ++ r) = some .directory → Path.HasShortNames (root ++ (r ++ [n]))) :
    (pruneEach (upward root r)).run t = ((), t) := by
  induction r using List.reverseRecOn with
  | nil => rfl
  | append_singleton r n ih =>
    have hr' : r <+: q := (List.prefix_append r [n]).trans hr
    have hplace : place root r n = root ++ (r ++ [n]) := List.append_assoc _ _ _
    rw [upward_concat, run_pruneEach_cons, hplace]
    split
    · next hfits =>
      have hqfits : (root ++ q).fits = true := by
        rcases hway with rfl | hway
        · exact hfits
        · exact hway.1
      cases hrun : t.run (.removeDirectory (root ++ (r ++ [n]))) with
      | ok t' =>
        obtain ⟨-, hdir, hleaf, -⟩ := FileTree.get?_of_removeDirectory hrun
        -- A directory that can be removed is prunable, and none is left.
        refine absurd ⟨⟨hr, hqfits, ?_⟩, by simp, hdir, hleaf⟩ (h (r ++ [n]))
        rcases hway with rfl | ⟨-, hnames⟩
        · rw [List.take_of_length_le (by omega)]
          exact FileTree.hasShortNames_of_removeDirectory hrun
        · obtain ⟨_ | ⟨m, rest⟩, rfl⟩ := hr
          · rw [List.append_nil, List.take_of_length_le (by omega)]
            exact FileTree.hasShortNames_of_removeDirectory hrun
          · have hnext : r ++ [n] ++ [m] <+: r ++ [n] ++ m :: rest := ⟨rest, by simp⟩
            rw [take_next hnext]
            exact hnames m hnext hdir
      | error err =>
        cases err with
        | notFound =>
          -- A directory that is missing lets the walk go on, and says that its name is not too
          -- long.
          refine ih hr' (.inr ⟨hqfits, fun m hm hdir => ?_⟩)
          obtain rfl : m = n := by
            have := (take_next hm).symm.trans (take_next hr)
            simpa using this
          rw [← List.append_assoc] at hrun hfits ⊢
          exact hasShortNames_of_notFound hdir hfits hrun
        | notADirectory | isADirectory | alreadyExists | notEmpty | nameTooLong | invalidName
          | intoItself => rfl
    · rfl

theorem run_prune_of_pruned (h : Pruned root k.components t) : (prune root k).run t = ((), t) := by
  unfold prune
  rw [keyDirectories_eq]
  exact run_walk_of_pruned h List.prefix_rfl (.inl rfl)

/-! ## What undoing an entry removes -/

/-- The second tree has no new directory, and the walk up from the key reaches the directories from
which something is gone. -/
structure Loses (root : Path) (k : Key) (t t' : FileTree) : Prop where
  directory : ∀ p, t'.get? p = some .directory → t.get? p = some .directory
  lost : ∀ p n, t.get? (place root p n) ≠ none → t'.get? (place root p n) = none →
    Reaches root k.components p

theorem Loses.refl (root : Path) (k : Key) (t : FileTree) : Loses root k t t :=
  ⟨fun _ => id, fun _ _ hsome hnone => absurd hnone hsome⟩

theorem Loses.trans (h : Loses root k t t₁) (h' : Loses root k t₁ t₂) : Loses root k t t₂ where
  directory p hp := h.directory p (h'.directory p hp)
  lost p n hsome hnone := by
    by_cases h₁ : t₁.get? (place root p n) = none
    · exact h.lost p n hsome h₁
    · exact h'.lost p n h₁ hnone

theorem loses_of_removed {x : Path}
    (hget : ∀ r, t'.get? r = if x = r then none else t.get? r)
    (hx : ∀ p n, x = place root p n → Reaches root k.components p) : Loses root k t t' := by
  refine ⟨fun p hp => ?_, fun p n hsome hnone => ?_⟩
  · rw [hget] at hp
    split at hp
    · cases hp
    · exact hp
  · rw [hget] at hnone
    split at hnone
    · next heq => exact hx p n heq
    · exact absurd hnone hsome

/-- A walk starts at the directory of its key. -/
theorem reaches_of_place {m : String} (hfits : (directory root k).fits = true)
    (h : (place root k.components m).HasShortNames) : Reaches root k.components k.components := by
  refine ⟨List.prefix_rfl, hfits, ?_⟩
  rw [List.take_of_length_le (by omega)]
  exact fun n hn => h n (List.mem_append_left _ hn)

theorem UndoesWithin.loses {c : FileCall} (hc : UndoesWithin root k t c)
    (hrun : t.run c = .ok t') : Loses root k t t' := by
  obtain ⟨hc, hfits⟩ := hc
  cases c with
  | createDirectory | write => exact hc.elim
  | removeFile p =>
    obtain ⟨m, rfl⟩ : ∃ m, p = place root k.components m := by
      rcases hc with rfl | rfl
      · exact ⟨_, rfl⟩
      · exact ⟨_, rfl⟩
    obtain ⟨hshort, -, hget⟩ := FileTree.get?_of_removeFile hrun
    refine loses_of_removed hget fun p n heq => ?_
    obtain ⟨rfl, rfl⟩ := place_inj.mp heq
    exact reaches_of_place hfits hshort
  | rename p q =>
    -- Of the two names, only that of the backup is gone afterwards.
    obtain ⟨rfl, rfl, ⟨b, hb⟩, -⟩ := hc
    rw [backupPath_eq, recordPath_eq] at *
    obtain ⟨hshort, -, hget⟩ := FileTree.get?_of_rename hrun hb
      fun h => absurd (place_inj.mp h).2 (by decide)
    refine ⟨fun p hp => ?_, fun p n hsome hnone => ?_⟩
    · rw [hget] at hp
      split at hp
      · cases hp
      split at hp
      · cases hp
      · exact hp
    · rw [hget] at hnone
      split at hnone
      · cases hnone
      split at hnone
      · next heq =>
        obtain ⟨rfl, rfl⟩ := place_inj.mp heq
        exact reaches_of_place hfits hshort
      · exact absurd hnone hsome
  | removeDirectory p =>
    obtain ⟨⟨q, -, hq, rfl⟩, -⟩ := hc
    obtain ⟨-, -, -, hget⟩ := FileTree.get?_of_removeDirectory hrun
    refine loses_of_removed hget fun p n heq => ?_
    obtain rfl : q = p ++ [n] := by
      rw [place, List.append_assoc] at heq
      exact List.append_cancel_left heq
    refine ⟨(List.prefix_append p [n]).trans hq, hfits, ?_⟩
    rw [take_next hq]
    exact FileTree.hasShortNames_of_removeDirectory hrun

theorem loses_rollBackOne (e : JournalEntry) (t : FileTree) :
    Loses root e.key t ((rollBackOne root e).run t).2 :=
  (steps_rollBackOne e).run (fun _ _ _ hc hI hrun => hI.trans (hc.loses hrun)) (.refl _ _ t)

/-- A directory that was emptied on the way to the key would be removed by the walk for that key. -/
theorem Loses.pruned (h : Loses root k t t') (hk : Pruned root k.components t')
    (hq : Pruned root q t) : Pruned root q t' := by
  intro p hp
  -- It was empty before, or it has lost an entry since and lies on the way of that walk.
  by_cases hleaf : t.isLeaf (root ++ p) = true
  · exact hq p ⟨hp.toReaches, hp.ne_nil, h.directory _ hp.isDirectory, hleaf⟩
  · obtain ⟨n, hn⟩ : ∃ n, t.get? (place root p n) ≠ none := by
      by_contra hnone
      exact hleaf (FileTree.isLeaf_iff.mpr fun n => not_not.mp fun hn => hnone ⟨n, hn⟩)
    have hreaches := h.lost p n hn (FileTree.isLeaf_iff.mp hp.isLeaf n)
    exact hk p ⟨hreaches, hp.ne_nil, hp.isDirectory, hp.isLeaf⟩

theorem pruned_rollBackOne (e : JournalEntry) (t : FileTree) :
    Pruned root e.key.components ((rollBackOne root e).run t).2 := by
  unfold rollBackOne
  rw [Script.run_bind, Script.run_bind]
  exact pruned_prune e.key

/-- Once entries are undone, the walks up from their keys remove nothing any more. -/
theorem pruned_rollBackEach (l : List JournalEntry) (t : FileTree) :
    (∀ q, Pruned root q t → Pruned root q ((rollBackEach root l).run t).2) ∧
      ∀ e ∈ l, Pruned root e.key.components ((rollBackEach root l).run t).2 := by
  -- What is pruned must be carried along for all keys at once, for later entries remove more.
  induction l generalizing t with
  | nil => exact ⟨fun _ => id, fun e he => absurd he List.not_mem_nil⟩
  | cons e l ih =>
    obtain ⟨hkept, hrest⟩ := ih ((rollBackOne root e).run t).2
    rw [rollBackEach, Script.run_bind]
    refine ⟨fun q hq => hkept q ((loses_rollBackOne e t).pruned (pruned_rollBackOne e t) hq), ?_⟩
    exact List.forall_mem_cons.mpr ⟨hkept _ (pruned_rollBackOne e t), hrest⟩

/-! ## Entries that are undone already -/

/-- The files of an entry are as undoing it leaves them. -/
structure Spent (root : Path) (e : JournalEntry) (c : Contents) : Prop where
  cannot_return : e.replaces = true → ¬ CanReturn root e.key c
  no_record : e.replaces = false → e.write = true → (recordPath root e.key).InLimits →
    ¬ IsFile (c e.key.components recordName)
  no_staging : (stagingPath root e.key).InLimits → ¬ IsFile (c e.key.components stagingName)

theorem Spent.congr (hs : Spent root e c) (h : SameAt e.key.components c c') :
    Spent root e c' where
  cannot_return hrep := (CanReturn.congr h).not.mpr (hs.cannot_return hrep)
  no_record hrep hwrite hl := h recordName ▸ hs.no_record hrep hwrite hl
  no_staging hl := h stagingName ▸ hs.no_staging hl

theorem not_isFile_clear {d : Path} {n : String} (c : Contents) (hl : (place root d n).InLimits) :
    ¬ IsFile (c.clear d n root d n) := by
  rw [Contents.clear, if_pos hl]
  exact Contents.not_isFile_drop _ _ _

theorem spent_rolledBack (root : Path) (e : JournalEntry) (c : Contents) :
    Spent root e (rolledBack root c e) where
  cannot_return hrep hreturn := by
    obtain ⟨hl, hbackup, hrecord⟩ := hreturn
    rw [backup_rolledBack_of_replaces hrep] at hbackup
    rw [record_rolledBack_of_replaces hrep] at hrecord
    -- Had the backup been able to return, it would have returned.
    split at hbackup
    · exact not_isFile_none hbackup
    · next hno =>
      rw [if_neg hno] at hrecord
      exact hno ⟨hl, hbackup, hrecord⟩
  no_record hrep hwrite hl := by
    rw [record_rolledBack_of_new hrep hwrite]
    exact not_isFile_clear c hl
  no_staging hl := not_isFile_clear (restored root e c) hl

/-- With distinct keys, every entry is undone in the end. -/
theorem spent_rollBackEach (hr : t.get? root = some .directory) (hl : (l.map (·.key)).Nodup)
    (he : e ∈ l) : Spent root e (contents root ((rollBackEach root l).run t).2) := by
  have hcontents := ((leads_rollBackEach_eq root l (contents root t)).meets hr).run.2
  rw [hcontents]
  exact (spent_rolledBack root e _).congr (rolledBackEach_apply root _ hl he)

theorem run_removeIfPresent_of_missing {d : Path} {n : String} (hn : isHidden n = true)
    (h : (place root d n).InLimits → ¬ IsFile (contents root t d n)) :
    (discard (Script.removeIfPresent (place root d n)) : Script Unit).run t = ((), t) := by
  refine Prod.ext rfl ?_
  rw [run_discard_removeIfPresent]
  rcases run_make (.removeFile (place root d n)) t with
    ⟨t', -, hfits, hrun⟩ | ⟨err, hrun, -⟩
  · obtain ⟨hshort, hfile, -⟩ := FileTree.get?_of_removeFile hrun
    rw [contents_of_hidden hn] at h
    exact absurd hfile (h ⟨hfits _ (by simp [FileCall.paths]), hshort⟩)
  · rw [hrun]

theorem run_restore_of_spent (h : Spent root e (contents root t)) :
    (restore root e).run t = ((), t) := by
  unfold restore
  split
  · next hrep =>
    rw [Script.run_bind, Script.run_see]
    split
    · next hfile =>
      obtain ⟨hl, b, hb⟩ := (isFile_place_iff (by decide)).mp hfile
      have hsource : t.get? (backupPath root e.key) = some (.file b) := by
        rwa [contents_of_hidden (by decide)] at hb
      refine (Script.run_map _ _ _).trans (Prod.ext rfl ?_)
      -- A backup that is still there cannot return, so the renaming fails.
      rcases run_make (.rename (backupPath root e.key) (recordPath root e.key)) t with
        ⟨t', -, -, hrun⟩ | ⟨err, hrun, -⟩
      · obtain ⟨-, htarget, -⟩ := FileTree.get?_of_rename hrun hsource
          fun heq => absurd (place_inj.mp heq).2 (by decide)
        refine absurd ⟨hl, ⟨b, hb⟩, ?_⟩ (h.cannot_return hrep)
        rwa [contents_of_hidden (by decide)]
      · rw [hrun]
    · rfl
  · next hrep =>
    split
    · next hwrite =>
      exact run_removeIfPresent_of_missing (by decide) (h.no_record (by simpa using hrep) hwrite)
    · rfl

theorem run_rollBackOne_of_spent (h : Spent root e (contents root t))
    (hp : Pruned root e.key.components t) : (rollBackOne root e).run t = ((), t) := by
  rw [rollBackOne, Script.run_bind, run_restore_of_spent h, Script.run_bind, stagingPath_eq,
    run_removeIfPresent_of_missing (by decide) h.no_staging, run_prune_of_pruned hp]

theorem run_rollBackEach_of_spent (hl : ∀ e ∈ l, Spent root e (contents root t) ∧
    Pruned root e.key.components t) : (rollBackEach root l).run t = ((), t) := by
  induction l with
  | nil => rfl
  | cons e l ih =>
    obtain ⟨⟨hspent, hpruned⟩, hrest⟩ := List.forall_mem_cons.mp hl
    rw [rollBackEach, Script.run_bind, run_rollBackOne_of_spent hspent hpruned]
    exact ih hrest

/-- **To roll back a second time changes nothing**, if the keys are distinct. -/
theorem run_rollBack_again (hr : t.get? root = some .directory)
    (hkeys : (entries.map (·.key)).Nodup) :
    (rollBack root entries).run ((rollBack root entries).run t).2 =
      ((), ((rollBack root entries).run t).2) := by
  have hkeys' : (entries.reverse.map (·.key)).Nodup := by
    rw [List.map_reverse]
    exact List.nodup_reverse.mpr hkeys
  exact run_rollBackEach_of_spent fun e he =>
    ⟨spent_rollBackEach hr hkeys' he, (pruned_rollBackEach _ t).2 e he⟩

/-! ## Opening again -/

variable {w : WrittenPath}

/-- Where nothing is left of any commit, recovery changes nothing. -/
theorem run_recover_of_clean (hr : t.get? root = some .directory)
    (hl : (journalPath root).InLimits) (hc : Clean (contents root t)) :
    (recover root).run.run t = (.ok (), t) := by
  have hrollBack : (rollBackUnfinished root).run.run t = (.ok (), t) := by
    unfold rollBackUnfinished
    rw [run_bind_see, read_journal_of_none hl hr hc.no_journal]
    rfl
  have hleftovers : leftovers root t = [] := by
    refine List.eq_nil_iff_forall_not_mem.mpr fun p hp => ?_
    obtain ⟨d, n, -, hn, hf⟩ := mem_leftovers_iff.mp hp
    exact hc.no_leftover d n hn hf
  unfold recover
  rw [run_bind_of_ok hrollBack, run_bind_see, hleftovers]
  rfl

theorem run_openAt_of_clean (hw : WrittenPath.find t w = .ok (root, .directory))
    (hl : (journalPath root).InLimits) (hc : Clean (contents root t)) :
    (openAt w).run.run t = (.ok ⟨root, false⟩, t) := by
  unfold openAt
  rw [run_bind_see, hw]
  exact run_bind_of_ok (run_recover_of_clean (get?_of_find hw) hl hc)

/-- The working directory stays the same if the root of the store lies in it. -/
theorem Confined.working {keys : List Key} {call : FileCall} (hc : Confined root keys t call)
    (hrun : t.run call = .ok t') (hq : t.working = ⟨q, 0⟩) (hroot : q <+: root) :
    t'.working = t.working := by
  cases call with
  | createDirectory | write => exact hc.elim
  | removeFile p =>
    simp only [FileTree.run, FileTree.removeFile] at hrun
    split at hrun
    · cases hrun
    · cases hrun
    · obtain rfl := Except.ok.inj hrun
      exact FileTree.working_remove _ _
  | rename p p' =>
    obtain ⟨k, -, rfl, rfl, ⟨b, hb⟩, -⟩ := hc
    exact (FileTree.keepsDirectories_rename hrun hb
      fun heq => absurd (place_inj.mp heq).2 (by decide)).working
  | removeDirectory p =>
    simp only [FileTree.run, FileTree.removeDirectory] at hrun
    split at hrun
    · cases hrun
    · cases hrun
    · split at hrun
      · obtain rfl := Except.ok.inj hrun
        have hne : q ≠ p := fun heq => OnTheWay.not_prefix hc.1 (heq ▸ hroot)
        simp [hq, Standpoint.afterRemoval, hne]
      · cases hrun

/-- Unless it goes up on its way, the written path of a store names it still. -/
theorem find_of_openAt {d : Disk} (hopen : (openAt w).run.run t = (.ok d, t'))
    (hup : ".." ∉ WrittenPath.parts w) : WrittenPath.find t' w = .ok (d.root, .directory) := by
  obtain ⟨hfind, -, -⟩ := of_openAt_ok hopen
  refine WrittenPath.find_of_way hup hfind (clean_of_openAt hopen).1 fun q hq hprefix => ?_
  have hworking := (steps_openAt hfind).run (I := fun t' => t'.working = t.working)
    (fun c t₁ t₂ hc h₁ hrun => (hc.working hrun (h₁.trans hq) hprefix).trans h₁) rfl
  rwa [hopen] at hworking

/-- **Recovery is complete, and to recover again changes nothing.** A store that was opened has no
leftover file and no journal. It is opened again at every written path that names its root, among
them the path it was opened at unless that goes up, and the tree stays as it is. To roll back a
journal with distinct keys twice is the same as to roll it back once. -/
theorem recovery_idempotent :
    (∀ w t t' d, (openAt w).run.run t = (.ok d, t') →
      (∀ p name b, isLeftover name = true → t'.get? (d.root ++ p ++ [name]) ≠ some (.file b)) ∧
      t'.get? (journalPath d.root) = none ∧
      (".." ∉ WrittenPath.parts w → WrittenPath.find t' w = .ok (d.root, .directory)) ∧
      ∀ w', WrittenPath.find t' w' = .ok (d.root, .directory) →
        (openAt w').run.run t' = (.ok d, t')) ∧
    ∀ root t entries, t.get? root = some .directory →
      (entries.map JournalEntry.key).Nodup →
      (rollBack root entries).run ((rollBack root entries).run t).2 =
        ((), ((rollBack root entries).run t).2) := by
  refine ⟨fun w t t' d hopen => ?_, fun root t entries hr hkeys => run_rollBack_again hr hkeys⟩
  -- An opened store is clean, and a clean store is left alone.
  obtain ⟨-, hl, hc⟩ := clean_of_openAt hopen
  refine ⟨fun p name b hn hfile => ?_, ?_, find_of_openAt hopen, fun w' hw => ?_⟩
  · refine hc.no_leftover p name hn ⟨b, ?_⟩
    rwa [contents_of_hidden (isHidden_of_isLeftover hn)]
  · rw [journalPath_eq, ← contents_of_hidden (by decide)]
    exact hc.no_journal
  · rw [run_openAt_of_clean hw hl hc, ← (of_openAt_ok hopen).2.1]

/-- A key that is new and one that is replaced, though it has no backup. -/
def crowdedEntries : List JournalEntry := [⟨innerKey, true, false⟩, ⟨.root, true, true⟩]

/-- Both change the tree the first time. -/
theorem recovery_idempotent_crowdedTree :
    (∃ t', t' ≠ crowdedTree ∧
      (openAt "/data").run.run crowdedTree = (.ok ⟨["data"], false⟩, t') ∧
      (openAt "/data").run.run t' = (.ok ⟨["data"], false⟩, t')) ∧
    ∃ t', t' ≠ crowdedTree ∧
      (rollBack ["data"] crowdedEntries).run crowdedTree = ((), t') ∧
      (rollBack ["data"] crowdedEntries).run t' = ((), t') := by
  obtain ⟨hopen, hrollBack⟩ := recovery_idempotent
  obtain ⟨hok, hchanged⟩ : ((openAt "/data").run.run crowdedTree).1 = .ok ⟨["data"], false⟩ ∧
      ((openAt "/data").run.run crowdedTree).2 ≠ crowdedTree := by decide +kernel
  have hfirst := Prod.fst_eq_iff.mp hok
  have hundone : ((rollBack ["data"] crowdedEntries).run crowdedTree).2 ≠ crowdedTree := by
    decide +kernel
  have hagain := (hopen _ _ _ _ hfirst).2.2.2 "/data" ((hopen _ _ _ _ hfirst).2.2.1 (by decide))
  have htwice := hrollBack ["data"] crowdedTree crowdedEntries rfl (by decide)
  exact ⟨⟨_, hchanged, hfirst, hagain⟩, _, hundone, rfl, htwice⟩

end AppRegistry.Disk
