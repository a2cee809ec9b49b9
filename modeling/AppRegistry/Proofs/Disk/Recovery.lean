import AppRegistry.Disk.Basic
import AppRegistry.Proofs.Disk.Contents
import AppRegistry.Proofs.Disk.JournalText
import Mathlib.Data.List.Nodup

/-!
# Undoing a commit

Let `G` be the contents of a store at rest, for instance those before a commit. Wherever the commit
is cut short, the store is `Recoverable`: either nothing but leftover files has changed (`Settled`),
or a journal lies at the root and tells how to get back to `G` (`Journaled`).

Main result: `leads_recover`. Opening a recoverable store leads to contents that agree with `G`
except that the leftover files are gone, and wherever the opening is cut short itself, the store is
recoverable still.

The journal does not tell how far the commit came. That is read off the files of each key: a record
is put back when there is a backup of it and left alone when there is none (`Undoable`). So an entry
that was never applied, one that was applied by half and one that was undone already are all undone
alike.
-/

namespace AppRegistry.Disk

variable {root : Path} {G c c' : Contents} {entries : List JournalEntry} {e : JournalEntry}

/-! ## The shelf of a key -/

/-- A name under which a commit keeps a file of one key. -/
def IsShelf (n : String) : Prop := n = recordName ∨ n = stagingName ∨ n = backupName

/-- Two contents differ at most in the files of one key. -/
def SameBut (k : Key) (c c' : Contents) : Prop :=
  ∀ d n, (d = k.components → ¬ IsShelf n) → c' d n = c d n

theorem SameBut.trans {k : Key} {c₁ c₂ c₃ : Contents} (h : SameBut k c₁ c₂) (h' : SameBut k c₂ c₃) :
    SameBut k c₁ c₃ := fun d n hdn => (h' d n hdn).trans (h d n hdn)

theorem sameBut_set (k : Key) {n : String} (hn : IsShelf n) (x : Option Entry) :
    SameBut k c (c.set k.components n x) := fun _ _ hdn =>
  c.set_of_ne x fun hd hne => hdn hd.symm (hne ▸ hn)

theorem sameBut_drop (k : Key) {n : String} (hn : IsShelf n) :
    SameBut k c (c.drop k.components n) := fun _ _ hdn =>
  c.drop_of_ne fun hd hne => hdn hd.symm (hne ▸ hn)

theorem sameBut_move (k : Key) {n m : String} (hn : IsShelf n) (hm : IsShelf m) :
    SameBut k c (c.move k.components n m) :=
  (sameBut_set k hn none).trans (sameBut_set k hm _)

theorem SameBut.other {k l : Key} (h : SameBut k c c') (hkl : l ≠ k) (n : String) :
    c' l.components n = c l.components n := h _ _ fun hd => absurd (Key.ext hd) hkl

theorem SameBut.at_root {k : Key} (h : SameBut k c c') {n : String} (hn : ¬ IsShelf n) :
    c' [] n = c [] n := h _ _ fun _ => hn

/-! ## What can be recovered -/

/-- Nothing but leftover files has changed, and those can be removed. -/
structure Settled (root : Path) (G c : Contents) : Prop where
  kept : ∀ d n, isLeftover n = false → c d n = G d n
  sweepable : ∀ d n, isLeftover n = true → IsFile (c d n) → (place root d n).InLimits

/-- The files of one key tell how to get back to `G`. A record that the commit replaces is either
there still or kept as the backup. A key that had no record has none, or a new one. -/
def Undoable (root : Path) (G : Contents) (e : JournalEntry) (c : Contents) : Prop :=
  (recordPath root e.key).InLimits ∧
    if e.replaces then
      ∃ b, G e.key.components recordName = some (.file b) ∧
        ((¬ IsFile (c e.key.components backupName) ∧
            c e.key.components recordName = some (.file b)) ∨
          (c e.key.components backupName = some (.file b) ∧
            c e.key.components recordName ≠ some .directory))
    else
      ¬ IsFile (G e.key.components recordName) ∧ ¬ IsFile (c e.key.components backupName) ∧
        (c e.key.components recordName = G e.key.components recordName ∨
          (e.write = true ∧ G e.key.components recordName = none ∧
            IsFile (c e.key.components recordName)))

/-- A commit of the entries is under way, and its journal is complete. -/
structure Journaled (root : Path) (G : Contents) (entries : List JournalEntry) (c : Contents) :
    Prop where
  journal : c [] journalName = some (.file (journalBytes entries))
  inLimits : (journalPath root).InLimits
  before : G [] journalName = none
  keys_nodup : (entries.map (·.key)).Nodup
  elsewhere : ∀ d n, (d = [] → n ≠ journalName ∧ n ≠ journalStagingName) →
    (IsShelf n → ∀ e ∈ entries, d ≠ e.key.components) → c d n = G d n
  undoable : ∀ e ∈ entries, Undoable root G e c
  sweepable : ∀ d n, isLeftover n = true → IsFile (c d n) → (place root d n).InLimits

/-- Opening the store brings `G` back. -/
def Recoverable (root : Path) (G c : Contents) : Prop :=
  (G [] journalName = none ∧ Settled root G c) ∨ ∃ entries, Journaled root G entries c

theorem eq_of_key_eq {e e' : JournalEntry} (h : (entries.map (·.key)).Nodup) (he : e ∈ entries)
    (he' : e' ∈ entries) (hk : e.key = e'.key) : e = e' := List.inj_on_of_nodup_map h he he' hk

theorem Undoable.congr (h : Undoable root G e c)
    (hrec : c' e.key.components recordName = c e.key.components recordName)
    (hbak : c' e.key.components backupName = c e.key.components backupName) :
    Undoable root G e c' := by
  unfold Undoable at *
  rwa [hrec, hbak]

/-- Work on the files of one key keeps the store recoverable if that key stays undoable. -/
theorem Journaled.update (h : Journaled root G entries c) (he : e ∈ entries)
    (hsame : SameBut e.key c c') (hu : Undoable root G e c')
    (hs : ∀ n, IsShelf n → isLeftover n = true → IsFile (c' e.key.components n) →
      (place root e.key.components n).InLimits) : Journaled root G entries c' where
  journal := by rw [hsame.at_root (by unfold IsShelf; decide), h.journal]
  inLimits := h.inLimits
  before := h.before
  keys_nodup := h.keys_nodup
  elsewhere d n hroot hkeys := by
    rw [hsame d n fun hd hn => hkeys hn e he hd, h.elsewhere d n hroot hkeys]
  undoable e' he' := by
    -- The keys are distinct, so the entry worked on is the only one of its key.
    by_cases hk : e'.key = e.key
    · obtain rfl := eq_of_key_eq h.keys_nodup he' he hk
      exact hu
    · exact (h.undoable e' he').congr (hsame.other hk _) (hsame.other hk _)
  sweepable d n hn hf := by
    by_cases hdn : d = e.key.components ∧ IsShelf n
    · obtain ⟨rfl, hshelf⟩ := hdn
      exact hs n hshelf hn hf
    · rw [hsame d n fun hd hshelf => hdn ⟨hd, hshelf⟩] at hf
      exact h.sweepable d n hn hf

/-- A file of one key may be removed if that key stays undoable. -/
theorem Journaled.drop (h : Journaled root G entries c) (he : e ∈ entries) {n : String}
    (hn : IsShelf n) (hu : Undoable root G e (c.drop e.key.components n)) :
    Journaled root G entries (c.drop e.key.components n) := by
  refine h.update he (sameBut_drop e.key hn) hu fun m _ hleft hf => h.sweepable _ m hleft ?_
  rwa [Contents.drop_of_ne] at hf
  rintro - rfl
  exact Contents.not_isFile_drop _ _ _ hf

/-- A file of one key may get another shelf name if that key stays undoable. -/
theorem Journaled.move (h : Journaled root G entries c) (he : e ∈ entries) {n m : String}
    (hn : IsShelf n) (hm : IsShelf m) (hnm : n ≠ m) (hl : (place root e.key.components m).InLimits)
    (hu : Undoable root G e (c.move e.key.components n m)) :
    Journaled root G entries (c.move e.key.components n m) := by
  apply h.update he (sameBut_move e.key hn hm) hu
  intro p _ hleft hf
  by_cases hpm : p = m
  · exact hpm ▸ hl
  · refine h.sweepable _ p hleft ?_
    rwa [Contents.move_of_ne] at hf
    rintro -
    refine ⟨?_, fun hmp => hpm hmp.symm⟩
    rintro rfl
    rw [Contents.move_source _ hnm] at hf
    exact not_isFile_none hf

/-! ## Undoing one entry -/

/-- An entry is undone: its key has the record it had before, and no other files. -/
structure Undone (G : Contents) (e : JournalEntry) (c : Contents) : Prop where
  record : c e.key.components recordName = G e.key.components recordName
  no_staging : ¬ IsFile (c e.key.components stagingName)
  no_backup : ¬ IsFile (c e.key.components backupName)

theorem isShelf_record : IsShelf recordName := .inl rfl

theorem isShelf_staging : IsShelf stagingName := .inr (.inl rfl)

theorem isShelf_backup : IsShelf backupName := .inr (.inr rfl)

/-- What undoing the changes to the record of an entry leads to. -/
def Restored (G : Contents) (e : JournalEntry) (c c' : Contents) : Prop :=
  SameBut e.key c c' ∧ c' e.key.components recordName = G e.key.components recordName ∧
    ¬ IsFile (c' e.key.components backupName)

/-- A record that was replaced is put back, if it was moved aside at all. -/
theorem leads_restore_replaced (h : Journaled root G entries c) (he : e ∈ entries)
    (hrep : e.replaces = true) :
    Leads root False (Journaled root G entries) c (restore root e) fun _ => Restored G e c := by
  obtain ⟨hlimit, hu⟩ := h.undoable e he
  rw [if_pos hrep] at hu
  obtain ⟨b, hG, hu⟩ := hu
  unfold restore
  rw [if_pos hrep]
  refine Leads.bind (leads_see h fun t _ hc => fun _ => ?_)
  have hfile : t.isFile (backupPath root e.key) = true ↔
      (backupPath root e.key).InLimits ∧ IsFile (c e.key.components backupName) :=
    hc ▸ isFile_place_iff (by decide)
  split
  · next hbak =>
    obtain ⟨hl, hf⟩ := hfile.mp hbak
    -- A replaced record is in its place or in the backup, and the backup was just seen.
    rcases hu with ⟨hnone, -⟩ | ⟨hb, hrec⟩
    · exact absurd hf hnone
    · have hmove := sameBut_move (c := c) e.key isShelf_backup isShelf_record
      have hr : c.move e.key.components backupName recordName e.key.components recordName =
          some (.file b) := by rw [Contents.move_target, hb]
      have hn : ¬ IsFile (c.move e.key.components backupName recordName
          e.key.components backupName) := by
        rw [Contents.move_source _ (by decide)]
        exact not_isFile_none
      refine leads_discard (leads_rename (by decide) (by decide) (by decide) hf h
        (fun _ _ => ⟨?_, hmove, hr.trans hG.symm, hn⟩) fun _ hblocked => ?_)
      · refine h.move he isShelf_backup isShelf_record (by decide) hlimit ⟨hlimit, ?_⟩
        rw [if_pos hrep]
        exact ⟨b, hG, .inl ⟨hn, hr⟩⟩
      · exact absurd (hblocked id hl hlimit) hrec
  · next hbak =>
    refine leads_pure h ⟨fun _ _ _ => rfl, ?_⟩
    rcases hu with ⟨hnone, hrec⟩ | ⟨hb, -⟩
    · exact ⟨hrec.trans hG.symm, hnone⟩
    · -- A backup that was not seen is out of reach, and those of a journal never are.
      have hfb : IsFile (c e.key.components backupName) := ⟨b, hb⟩
      exact absurd (hfile.mpr ⟨h.sweepable _ _ (by decide) hfb, hfb⟩) hbak

/-- A record that is new is removed, if it was put in place at all. -/
theorem leads_restore_new (h : Journaled root G entries c) (he : e ∈ entries)
    (hrep : ¬ e.replaces = true) :
    Leads root False (Journaled root G entries) c (restore root e) fun _ => Restored G e c := by
  obtain ⟨hlimit, hu⟩ := h.undoable e he
  rw [if_neg hrep] at hu
  obtain ⟨hG, hbak, hrec⟩ := hu
  unfold restore
  rw [if_neg hrep]
  by_cases hw : e.write = true
  · rw [if_pos hw]
    -- A record that is there was put there by the commit, as there was none before.
    have hr : c.drop e.key.components recordName e.key.components recordName =
        G e.key.components recordName := by
      unfold Contents.drop
      split
      · next hf =>
        rw [Contents.set_self]
        rcases hrec with hrec | ⟨-, hnone, -⟩
        · exact absurd (hrec ▸ hf) hG
        · exact hnone.symm
      · next hf =>
        rcases hrec with hrec | ⟨-, -, hfile⟩
        · exact hrec
        · exact absurd hfile hf
    have hb : ¬ IsFile (c.drop e.key.components recordName e.key.components backupName) := by
      rwa [Contents.drop_of_ne _ fun _ => by decide]
    refine leads_drop (by decide) (fun _ => hlimit) h (h.drop he isShelf_record ⟨hlimit, ?_⟩)
      ⟨sameBut_drop e.key isShelf_record, hr, hb⟩
    rw [if_neg hrep]
    exact ⟨hG, hb, .inl hr⟩
  · rw [if_neg hw]
    refine leads_pure h ⟨fun _ _ _ => rfl, ?_, hbak⟩
    rcases hrec with hrec | ⟨hwrite, -⟩
    · exact hrec
    · exact absurd hwrite hw

theorem leads_restore (h : Journaled root G entries c) (he : e ∈ entries) :
    Leads root False (Journaled root G entries) c (restore root e) fun _ => Restored G e c :=
  if hrep : e.replaces = true then leads_restore_replaced h he hrep else leads_restore_new h he hrep

theorem leads_rollBackOne (h : Journaled root G entries c) (he : e ∈ entries) :
    Leads root False (Journaled root G entries) c (rollBackOne root e) fun _ c' =>
      SameBut e.key c c' ∧ Undone G e c' := by
  unfold rollBackOne
  refine Leads.bind ((leads_restore h he).imp fun _ c₁ h₁ hj => ?_)
  obtain ⟨hsame, hrec, hbak⟩ := h₁
  have hrec' : c₁.drop e.key.components stagingName e.key.components recordName =
      c₁ e.key.components recordName := Contents.drop_of_ne _ fun _ => by decide
  have hbak' : c₁.drop e.key.components stagingName e.key.components backupName =
      c₁ e.key.components backupName := Contents.drop_of_ne _ fun _ => by decide
  have hj' : Journaled root G entries (c₁.drop e.key.components stagingName) :=
    hj.drop he isShelf_staging ((hj.undoable e he).congr hrec' hbak')
  refine Leads.bind (leads_drop (by decide) (hj.sweepable _ _ (by decide)) hj hj' fun _ => ?_)
  have hsame' := hsame.trans (sameBut_drop e.key isShelf_staging)
  refine leads_prune hj' ⟨hsame', hrec'.trans hrec, ?_, ?_⟩
  · exact Contents.not_isFile_drop _ _ _
  · rwa [hbak']

/-! ## Undoing a commit -/

theorem Undone.congr {k : Key} (h : Undone G e c) (hsame : SameBut k c c') (hk : e.key ≠ k) :
    Undone G e c' where
  record := by rw [hsame.other hk, h.record]
  no_staging := by rw [hsame.other hk]; exact h.no_staging
  no_backup := by rw [hsame.other hk]; exact h.no_backup

/-- Entry by entry the commit is undone, and what is undone stays so. -/
theorem leads_rollBackEach {l : List JournalEntry} (h : Journaled root G entries c)
    (hl : ∀ e ∈ l, e ∈ entries) :
    Leads root False (Journaled root G entries) c (rollBackEach root l) fun _ c' =>
      ∀ e ∈ entries, e ∈ l ∨ Undone G e c → Undone G e c' := by
  -- The goal is stated of the entries that are in the list or undone already, so that it can be
  -- carried through the list.
  induction l generalizing c with
  | nil => exact leads_pure h fun e _ he => he.resolve_left List.not_mem_nil
  | cons e l ih =>
    have he := hl e List.mem_cons_self
    unfold rollBackEach
    refine Leads.bind ((leads_rollBackOne h he).imp fun _ c₁ h₁ hj => ?_)
    obtain ⟨hsame, hundone⟩ := h₁
    refine (ih hj fun e' he' => hl e' (List.mem_cons_of_mem _ he')).imp fun _ c' h' => ?_
    intro e' he' hor
    refine h' e' he' ?_
    by_cases hk : e'.key = e.key
    · obtain rfl := eq_of_key_eq h.keys_nodup he' he hk
      exact .inr hundone
    · rcases hor with hmem | hu
      · exact .inl ((List.mem_cons.mp hmem).resolve_left fun heq => hk (congrArg _ heq))
      · exact .inr (hu.congr hsame hk)

theorem leads_rollBack (h : Journaled root G entries c) :
    Leads root False (Journaled root G entries) c (rollBack root entries) fun _ c' =>
      ∀ e ∈ entries, Undone G e c' :=
  (leads_rollBackEach h fun _ he => List.mem_reverse.mp he).imp fun _ _ h' e he =>
    h' e he (.inl (List.mem_reverse.mpr he))

/-- Apart from leftover files, the records of the entries are all that a commit touches. -/
theorem Journaled.eq_of_no_entry (h : Journaled root G entries c) {d : Path} {n : String}
    (hn : isLeftover n = false) (hroot : d = [] → n ≠ journalName)
    (hkey : n = recordName → ∀ e ∈ entries, d ≠ e.key.components) : c d n = G d n := by
  refine h.elsewhere d n (fun hd => ⟨hroot hd, ?_⟩) ?_
  · rintro rfl
    exact absurd hn (by decide)
  · rintro (rfl | rfl | rfl)
    · exact hkey rfl
    · exact absurd hn (by decide)
    · exact absurd hn (by decide)

/-- Once the journal is gone, the records of the entries decide what the store has settled on. -/
theorem Journaled.settled (h : Journaled root G entries c) {G' : Contents}
    (hentries : ∀ e ∈ entries,
      c e.key.components recordName = G' e.key.components recordName)
    (hothers : ∀ d n, (n = recordName → ∀ e ∈ entries, d ≠ e.key.components) → G' d n = G d n) :
    Settled root G' (c.set [] journalName none) where
  kept d n hn := by
    by_cases hdn : d = [] ∧ n = journalName
    · obtain ⟨rfl, rfl⟩ := hdn
      rw [Contents.set_self, hothers _ _ fun h => absurd h (by decide), h.before]
    · rw [Contents.set_of_ne _ _ fun hd hne => hdn ⟨hd.symm, hne.symm⟩]
      by_cases hkey : n = recordName → ∀ e ∈ entries, d ≠ e.key.components
      · rw [hothers d n hkey, h.eq_of_no_entry hn (fun hd hne => hdn ⟨hd, hne⟩) hkey]
      · obtain ⟨rfl, e, he, rfl⟩ : n = recordName ∧ ∃ e ∈ entries, d = e.key.components := by
          simpa using hkey
        exact hentries e he
  sweepable d n hn hf := by
    refine h.sweepable d n hn ?_
    rwa [Contents.set_of_ne] at hf
    rintro - rfl
    exact absurd hn (by decide)

/-- Without faults the journal can be removed, if its path is in the limits. -/
theorem leads_removeJournal {F : Prop} (inv : Contents → Prop)
    (hj : IsFile (c [] journalName)) (h : inv c) (h' : inv (c.set [] journalName none)) :
    Leads root F inv c (removeJournal root).run fun
      | .ok (), c' => c' = c.set [] journalName none
      | .error _, c' => c' = c ∧ (¬ F → ¬ (journalPath root).InLimits) := by
  unfold removeJournal
  rw [journalPath_eq]
  refine leads_step (leads_removeIfPresent (by decide) h (fun _ _ => ⟨h', rfl⟩) (fun hn => ?_)
    fun _ he => ⟨rfl, fun hF hl => ?_⟩)
  · exact absurd hj (hn ▸ not_isFile_none)
  · exact absurd hj (he hF hl).1

/-! ## Opening a store -/

theorem read_journal_of_none {t : FileTree} (hl : (journalPath root).InLimits)
    (hr : t.get? root = some .directory) (h : contents root t [] journalName = none) :
    t.read (journalPath root) = .error .notFound := by
  rw [contents_of_hidden (by decide), ← journalPath_eq] at h
  have hslot : t.slot (journalPath root) = .ok none := by
    refine FileTree.slot_eq_ok_iff.mpr ⟨hl.2, h.symm, fun _ => ?_⟩
    rw [journalPath, List.dropLast_concat]
    exact hr
  unfold FileTree.read
  rw [FileTree.find_of_fits hl.1, FileTree.require, hslot]

theorem inLimits_of_read_journal {t : FileTree} (hr : t.get? root = some .directory)
    (h : t.read (journalPath root) = .error .notFound) :
    (journalPath root).InLimits ∧ contents root t [] journalName = none := by
  rw [contents_of_hidden (by decide), ← journalPath_eq]
  refine FileTree.of_find_eq_notFound hr ?_
  unfold FileTree.read at h
  split at h
  · next hfind => rw [← journalPath, hfind, Except.error.inj h]
  · cases h
  · cases h

theorem read_journal_of_file {t : FileTree} {b : ByteArray} (hl : (journalPath root).InLimits)
    (h : contents root t [] journalName = some (.file b)) :
    t.read (journalPath root) = .ok b := by
  rw [contents_of_hidden (by decide), ← journalPath_eq] at h
  exact FileTree.read_eq_ok_iff.mpr ⟨hl, h⟩

theorem leads_rollBackUnfinished (hl : (journalPath root).InLimits) (h : Recoverable root G c) :
    Leads root False (Recoverable root G) c (rollBackUnfinished root).run fun r c' =>
      r = .ok () ∧ G [] journalName = none ∧ Settled root G c' := by
  unfold rollBackUnfinished
  refine leads_bind_task (leads_lift (leads_see h fun t hr hc => fun _ => ?_))
  -- Without a journal there is nothing to do. With one, its own bytes are read back.
  rcases h with ⟨hG, hs⟩ | ⟨entries, hj⟩
  · rw [read_journal_of_none hl hr (by rw [hc, hs.kept _ _ (by decide), hG])]
    exact leads_pure_task (.inl ⟨hG, hs⟩) ⟨rfl, hG, hs⟩
  · rw [read_journal_of_file hj.inLimits (by rw [hc, hj.journal])]
    simp only [readJournal?_journalBytes]
    refine leads_bind_task (leads_lift ?_)
    refine Leads.withInv (leads_rollBack hj) (fun _ h => .inr ⟨entries, h⟩) fun _ c₁ hj₁ hu _ => ?_
    have hs := hj₁.settled (fun e he => (hu e he).record) fun _ _ _ => rfl
    refine (leads_removeJournal _ ⟨_, hj₁.journal⟩ (.inr ⟨entries, hj₁⟩)
      (.inl ⟨hj.before, hs⟩)).imp ?_
    rintro (e | u) c' hc'
    · exact absurd hj.inLimits (hc'.2 id)
    · subst hc'
      exact ⟨rfl, hj.before, hs⟩

/-! ## Removing leftover files -/

theorem isHidden_of_isLeftover {n : String} (h : isLeftover n = true) : isHidden n = true := by
  unfold isLeftover at h
  simp only [Bool.or_eq_true, beq_iff_eq] at h
  rcases h with (rfl | rfl) | rfl <;> decide

theorem mem_leftovers_iff {t : FileTree} {p : Path} : p ∈ leftovers root t ↔
    ∃ d n, p = place root d n ∧ isLeftover n = true ∧ IsFile (contents root t d n) := by
  unfold leftovers
  rw [List.mem_filterMap]
  constructor
  · rintro ⟨⟨q, e⟩, hmem, hp⟩
    obtain ⟨hq, hget⟩ := FileTree.mem_below_iff.mp hmem
    cases e with
    | directory => cases hp
    | file b =>
      simp only [Option.ite_none_right_eq_some, Option.some.injEq] at hp
      obtain ⟨hlast, rfl⟩ := hp
      have hsplit : q = q.dropLast ++ [q.getLast hq] := (List.dropLast_concat_getLast hq).symm
      rw [List.getLast?_eq_some_getLast hq] at hlast
      refine ⟨q.dropLast, q.getLast hq, ?_, by simpa using hlast, b, ?_⟩
      · rw [place, List.append_assoc, ← hsplit]
      · rw [contents_of_hidden (isHidden_of_isLeftover (by simpa using hlast)), place,
          List.append_assoc, ← hsplit]
        exact hget
  · rintro ⟨d, n, rfl, hn, b, hb⟩
    rw [contents_of_hidden (isHidden_of_isLeftover hn), place, List.append_assoc] at hb
    refine ⟨(d ++ [n], .file b), FileTree.mem_below_iff.mpr ⟨by simp, hb⟩, ?_⟩
    simp [hn, place]

theorem nodup_leftovers (t : FileTree) : (leftovers root t).Nodup := by
  unfold leftovers
  rw [List.nodup_iff_pairwise_ne, List.pairwise_filterMap]
  refine (t.pairwise_below root).imp fun {x y} hxy a ha b hb hab => hxy ?_
  obtain ⟨p, e⟩ := x
  obtain ⟨q, f⟩ := y
  cases e <;> cases f <;> simp only [Option.ite_none_right_eq_some, Option.some.injEq, reduceCtorEq]
    at ha hb
  obtain ⟨-, rfl⟩ := ha
  obtain ⟨-, rfl⟩ := hb
  exact List.append_cancel_left hab

/-- Nothing is left over, and the rest is as it was. -/
def Swept (G c : Contents) : Prop :=
  (∀ d n, isLeftover n = false → c d n = G d n) ∧ ∀ d n, isLeftover n = true → ¬ IsFile (c d n)

/-- Some leftover files that can be reached have been removed, and nothing else has changed. -/
def Sweeping (root : Path) (c c' : Contents) : Prop := ∀ d n, c' d n = c d n ∨
  (isLeftover n = true ∧ (place root d n).InLimits ∧ IsFile (c d n) ∧ c' d n = none)

theorem Sweeping.kept (h : Sweeping root c c') (d : Path) (n : String) (hn : isLeftover n = false) :
    c' d n = c d n :=
  (h d n).resolve_right fun hleft => nomatch hn.symm.trans hleft.1

theorem Sweeping.subset (h : Sweeping root c c') (d : Path) (n : String) (hf : IsFile (c' d n)) :
    IsFile (c d n) := by
  rcases h d n with heq | ⟨-, -, hfile, -⟩
  · exact heq ▸ hf
  · exact hfile

theorem Sweeping.refl (c : Contents) : Sweeping root c c := fun _ _ => .inl rfl

theorem Sweeping.trans {c₁ c₂ c₃ : Contents} (h : Sweeping root c₁ c₂)
    (h' : Sweeping root c₂ c₃) : Sweeping root c₁ c₃ := by
  intro d n
  rcases h' d n with heq | ⟨hn, hl, hf, hnone⟩
  · rw [heq]
    exact h d n
  · exact .inr ⟨hn, hl, h.subset d n hf, hnone⟩

theorem sweeping_set {d : Path} {n : String} (hn : isLeftover n = true)
    (hl : (place root d n).InLimits) (hf : IsFile (c d n)) :
    Sweeping root c (c.set d n none) := by
  intro d' n'
  by_cases hdn : d = d' ∧ n = n'
  · obtain ⟨rfl, rfl⟩ := hdn
    exact .inr ⟨hn, hl, hf, Contents.set_self _ _ _ _⟩
  · exact .inl (Contents.set_of_ne _ _ fun hd hne => hdn ⟨hd, hne⟩)

theorem Settled.sweep (h : Settled root G c) (hsweep : Sweeping root c c') : Settled root G c' where
  kept d n hn := (hsweep.kept d n hn).trans (h.kept d n hn)
  sweepable d n hn hf := h.sweepable d n hn (hsweep.subset d n hf)

/-- Every file of the list is gone if all can be removed, and they can be if their paths are in the
limits. -/
theorem leads_removeEach {F : Prop} {l : List Path} {c₀ : Contents} (hl : l.Nodup)
    (hfile : ∀ p ∈ l, ∃ d n, p = place root d n ∧ isLeftover n = true ∧ IsFile (c d n))
    (h : Sweeping root c₀ c) :
    Leads root F (Sweeping root c₀) c (removeEach l).run fun r c' => Sweeping root c c' ∧
      (r = .ok () → ∀ d n, place root d n ∈ l → ¬ IsFile (c' d n)) ∧
      (¬ F → (∀ p ∈ l, p.InLimits) → r = .ok ()) := by
  -- The first contents `c₀` stay fixed for the invariant, the present ones are general.
  induction l generalizing c with
  | nil =>
    exact leads_pure_task h
      ⟨.refl c, fun _ _ _ hmem => absurd hmem List.not_mem_nil, fun _ _ => rfl⟩
  | cons p l ih =>
    obtain ⟨hp, hrest⟩ := List.nodup_cons.mp hl
    obtain ⟨d, n, rfl, hn, hf⟩ := hfile p List.mem_cons_self
    unfold removeEach
    refine leads_bind_task (leads_step (leads_removeIfPresent (isHidden_of_isLeftover hn) h
      (fun hlimit _ => ?_) (fun hnone => absurd hf (hnone ▸ not_isFile_none)) fun _ he => ?_))
    · have hset := sweeping_set hn hlimit hf
      refine ⟨h.trans hset, fun _ => ?_⟩
      refine (ih hrest (fun q hq => ?_) (h.trans hset)).imp fun r c' hr => ?_
      · obtain ⟨d', n', rfl, hn', hf'⟩ := hfile q (List.mem_cons_of_mem _ hq)
        refine ⟨d', n', rfl, hn', ?_⟩
        rwa [Contents.set_of_ne]
        rintro rfl rfl
        exact hp hq
      · obtain ⟨hsweep, hgone, hok⟩ := hr
        refine ⟨hset.trans hsweep, fun hr d' n' hmem => ?_,
          fun hF hlimits => hok hF fun q hq => hlimits q (List.mem_cons_of_mem _ hq)⟩
        rcases List.mem_cons.mp hmem with heq | hmem
        · obtain ⟨rfl, rfl⟩ := place_inj.mp heq
          intro hf'
          have := hsweep.subset _ _ hf'
          rw [Contents.set_self] at this
          exact not_isFile_none this
        · exact hgone hr d' n' hmem
    · refine ⟨.refl c, (nomatch ·), fun hF hlimits => ?_⟩
      exact absurd hf (he hF (hlimits _ List.mem_cons_self)).1

/-- The sweep, in whatever order it takes the leftovers. -/
theorem leads_sweep {F : Prop} {l : List Path} {t : FileTree} (ht : contents root t = c)
    (hl : l.Perm (leftovers root t)) :
    Leads root F (Sweeping root c) c (removeEach l).run fun r c' => Sweeping root c c' ∧
      (r = .ok () → ∀ d n, isLeftover n = true → ¬ IsFile (c' d n)) ∧
      (¬ F → (∀ d n, isLeftover n = true → IsFile (c d n) → (place root d n).InLimits) →
        r = .ok ()) := by
  have hmem : ∀ p, p ∈ l ↔ ∃ d n, p = place root d n ∧ isLeftover n = true ∧ IsFile (c d n) :=
    fun p => hl.mem_iff.trans (ht ▸ mem_leftovers_iff)
  refine (leads_removeEach (hl.nodup_iff.mpr (nodup_leftovers t)) (fun p hp => (hmem p).mp hp)
    (.refl c)).imp fun r c' ⟨hsweep, hgone, hok⟩ => ⟨hsweep, fun hr d n hn hf => ?_, ?_⟩
  · exact hgone hr d n ((hmem _).mpr ⟨d, n, rfl, hn, hsweep.subset d n hf⟩) hf
  · intro hF hlimits
    refine hok hF fun p hp => ?_
    obtain ⟨d, n, rfl, hn, hf⟩ := (hmem p).mp hp
    exact hlimits d n hn hf

/-- Recovery that removes the leftovers in the order in which a listing of the tree has them. -/
def recoverIn (root : Path) (listing : FileTree → List Path) : Task Unit := do
  rollBackUnfinished root
  removeEach (← (Script.see listing : Script (List Path)))

theorem recover_eq (root : Path) : recover root = recoverIn root (leftovers root) := rfl

/-- **Recovery brings the contents back.** From whatever a commit or an earlier recovery that was
cut short has left, it succeeds, and wherever it is cut short itself it can be run again. The order
in which it removes the leftovers does not matter. -/
theorem leads_recoverIn {listing : FileTree → List Path}
    (hlisting : ∀ t, (listing t).Perm (leftovers root t)) (hl : (journalPath root).InLimits)
    (h : Recoverable root G c) :
    Leads root False (Recoverable root G) c (recoverIn root listing).run fun r c' =>
      r = .ok () ∧ Swept G c' := by
  unfold recoverIn
  refine leads_bind_task ((leads_rollBackUnfinished hl h).imp ?_)
  rintro r c₁ ⟨rfl, hG, hs⟩ _
  refine leads_bind_task (leads_lift (leads_see (.inl ⟨hG, hs⟩) fun t _ hc => fun _ => ?_))
  -- What is settled stays settled while files are removed, so a sweep may be cut short anywhere.
  refine (leads_sweep hc (hlisting t)).withInv
    (fun _ hsweep => .inl ⟨hG, hs.sweep hsweep⟩) fun r c' hsweep hr => ?_
  obtain ⟨-, hgone, hok⟩ := hr
  have hok := hok id hs.sweepable
  exact ⟨hok, (hs.sweep hsweep).kept, hgone hok⟩

theorem leads_recover (hl : (journalPath root).InLimits) (h : Recoverable root G c) :
    Leads root False (Recoverable root G) c (recover root).run fun r c' =>
      r = .ok () ∧ Swept G c' := by
  rw [recover_eq]
  exact leads_recoverIn (fun _ => .refl _) hl h

/-- What two sweeps of the same contents leave, if they leave no files. -/
theorem Sweeping.unique {c₁ c₂ : Contents} (h₁ : Sweeping root c c₁) (h₂ : Sweeping root c c₂)
    (hno₁ : ∀ d n, isLeftover n = true → ¬ IsFile (c₁ d n))
    (hno₂ : ∀ d n, isLeftover n = true → ¬ IsFile (c₂ d n)) : c₁ = c₂ := by
  funext d n
  rcases h₁ d n with heq₁ | ⟨hn, -, hf, hnone₁⟩ <;> rcases h₂ d n with heq₂ | ⟨hn', -, hf', hnone₂⟩
  · rw [heq₁, heq₂]
  · exact absurd (heq₁ ▸ hf') (hno₁ d n hn')
  · exact absurd (heq₂ ▸ hf) (hno₂ d n hn)
  · rw [hnone₁, hnone₂]

theorem recoverIn_run (root : Path) (listing : FileTree → List Path) (t : FileTree) :
    (recoverIn root listing).run.run t =
      match (rollBackUnfinished root).run.run t with
      | (.error e, t₁) => (.error e, t₁)
      | (.ok (), t₁) => (removeEach (listing t₁)).run.run t₁ := by
  unfold recoverIn
  rw [ExceptT.run_bind, Script.run_bind]
  rcases (rollBackUnfinished root).run.run t with ⟨e | u, t₁⟩ <;> rfl

theorem openAt_run (w : WrittenPath) : (openAt w).run = .look fun t =>
    match WrittenPath.find t w with
    | .error e => pure (.error (.rootInvalid w (.unreachable e)))
    | .ok (_, .file _) => pure (.error (.rootInvalid w .notADirectory))
    | .ok (place, .directory) =>
      (recover place >>= fun _ => pure ⟨place, false⟩ : Task Disk).run := by
  unfold openAt
  rw [ExceptT.run_bind]
  rfl

/-- Opening a store leaves what recovery leaves. -/
theorem openAt_run_snd {w : WrittenPath} {t : FileTree}
    (hw : WrittenPath.find t w = .ok (root, .directory)) :
    ((openAt w).run.run t).2 = ((recover root).run.run t).2 := by
  rw [openAt_run]
  simp only [Script.run, hw]
  rw [ExceptT.run_bind, Script.run_bind]
  cases ((recover root).run.run t).1 <;> rfl

/-- A store is opened at a path that names its root. -/
theorem meets_openAt {w : WrittenPath} {t : FileTree}
    (hw : WrittenPath.find t w = .ok (root, .directory)) (hr : t.get? root = some .directory)
    (hl : (journalPath root).InLimits) (h : Recoverable root G (contents root t)) :
    (openAt w).run.Meets False (Stored root (Recoverable root G))
      (fun r => Stored root fun c => r = .ok ⟨root, false⟩ ∧ Swept G c) t := by
  rw [openAt_run]
  simp only [Script.Meets, hw]
  refine Leads.meets (leads_bind_task ((leads_recover hl h).imp ?_)) hr
  rintro r c' ⟨rfl, hs⟩ hinv
  exact leads_pure_task hinv ⟨rfl, hs⟩

end AppRegistry.Disk
