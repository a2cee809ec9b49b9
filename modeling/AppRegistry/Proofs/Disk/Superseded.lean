import AppRegistry.Proofs.Disk.Backups
import AppRegistry.Proofs.Disk.Failure

/-!
# Backups that were left over

A commit has landed when its backups are dropped, and it lands even if one of them cannot be. Such a
backup holds a record that was superseded. A later commit that fails is rolled back from the backups
it finds, and it cannot tell one of its own from one that was left over.

**Theorem (`failed_transact_leftover`).** Let a commit fail after its journal was written. The
entries before the one that failed are undone, whatever was left over. Of the `pending` ones
(`StopsAt`), which were not begun, each that replaces a record gets the superseded one in its place
if a backup was left over, and no other record is changed.

Applying an entry puts the committed record over a backup that was left over. So each entry that was
begun can be undone (`Restores`), and each that was not begun still has the files it had before.
-/

namespace AppRegistry.Disk

variable {root : Path} {F : Prop} {G c c' : Contents} {L : List (Key × Option Json)}
  {entries pending l : List JournalEntry} {e : JournalEntry} {err : StorageError}

/-! ## Entries that can be undone -/

/-- Undoing an entry brings back the record that its key has in `G`. -/
def Restores (root : Path) (G : Contents) (e : JournalEntry) (c : Contents) : Prop :=
  rolledBack root c e e.key.components recordName = G e.key.components recordName

theorem Restores.congr (h : Restores root G e c) (hsame : SameAt e.key.components c c') :
    Restores root G e c' := (sameAt_rolledBack hsame recordName).trans h

/-- An entry can be applied: there is a record if it replaces one, and a staging file if it writes
one. -/
structure Poised (root : Path) (e : JournalEntry) (c : Contents) : Prop where
  record : e.replaces = true ↔ IsFile (c e.key.components recordName)
  staging : e.write = true →
    (stagingPath root e.key).InLimits ∧ IsFile (c e.key.components stagingName)
  changes : e.write = true ∨ e.replaces = true

theorem Poised.congr (h : Poised root e c) (hsame : SameAt e.key.components c c') :
    Poised root e c' := by
  refine ⟨?_, ?_, h.changes⟩
  · rw [hsame]
    exact h.record
  · rw [hsame]
    exact h.staging

/-- The backup of the committed record can return. -/
theorem restores_of_backup (hrep : e.replaces = true) (hl : (backupPath root e.key).InLimits)
    (hfile : IsFile (c e.key.components recordName))
    (hbackup : c' e.key.components backupName = c e.key.components recordName)
    (hrecord : c' e.key.components recordName ≠ some .directory) : Restores root c e c' := by
  unfold Restores
  rw [record_rolledBack_of_replaces hrep, if_pos ⟨hl, hbackup ▸ hfile, hrecord⟩, hbackup]

/-- A key without a record has none to lose. -/
theorem Poised.restores_of_new (h : Poised root e c) (hrep : e.replaces = false) :
    Restores root c e c := by
  have hnofile : ¬ IsFile (c e.key.components recordName) := fun hf => by
    rw [h.record.mpr hf] at hrep
    cases hrep
  have hwrite : e.write = true := h.changes.resolve_right (by simp [hrep])
  unfold Restores
  rw [record_rolledBack_of_new hrep hwrite, Contents.clear_eq_drop fun hf => absurd hf hnofile,
    Contents.drop_of_not_isFile hnofile]

/-- An entry that was not begun leaves the record alone unless a backup was left over. -/
theorem Poised.record_rolledBack (h : Poised root e c)
    (hl : IsFile (c e.key.components backupName) → (backupPath root e.key).InLimits) :
    rolledBack root c e e.key.components recordName =
      if e.replaces = true ∧ IsFile (c e.key.components backupName) then
        c e.key.components backupName
      else c e.key.components recordName := by
  by_cases hrep : e.replaces = true
  · have hfree : c e.key.components recordName ≠ some .directory := by
      obtain ⟨b, hb⟩ := h.record.mp hrep
      rw [hb]
      exact fun hd => nomatch hd
    rw [record_rolledBack_of_replaces hrep]
    by_cases hf : IsFile (c e.key.components backupName)
    · rw [if_pos ⟨hl hf, hf, hfree⟩, if_pos ⟨hrep, hf⟩]
    · rw [if_neg fun hreturn => hf hreturn.2.1, if_neg fun hboth => hf hboth.2]
  · -- An entry that replaces nothing has no record to remove yet.
    rw [if_neg fun hboth => hrep hboth.1]
    exact h.restores_of_new (by simpa using hrep)

/-! ## Applying entries until one fails -/

/-- Where a commit of entries stops with an error, and the entries that it has not begun by then. -/
inductive StopsAt (root : Path) : List JournalEntry → StorageError → List JournalEntry → Prop
  /-- The record of the first entry cannot be moved aside. -/
  | aside {e : JournalEntry} {l : List JournalEntry} {f : FileError} : e.replaces = true →
      StopsAt root (e :: l) (.io (Path.text (backupPath root e.key)) f) (e :: l)
  /-- The new record of the first entry cannot be put in its place. -/
  | inPlace {e : JournalEntry} {l : List JournalEntry} {f : FileError} : e.write = true →
      StopsAt root (e :: l) (.io (Path.text (recordPath root e.key)) f) l
  | later {e : JournalEntry} {l pending : List JournalEntry} {err : StorageError} :
      StopsAt root l err pending → StopsAt root (e :: l) err pending
  /-- All entries are applied, but the journal cannot be removed. -/
  | landing {f : FileError} : StopsAt root [] (.io (Path.text (journalPath root)) f) []

theorem StopsAt.of_landing (l : List JournalEntry) (f : FileError) :
    StopsAt root l (.io (Path.text (journalPath root)) f) [] := by
  induction l with
  | nil => exact .landing
  | cons e l ih => exact .later ih

theorem StopsAt.subset (h : StopsAt root l err pending) : ∀ e ∈ pending, e ∈ l := by
  induction h with
  | aside => exact fun e he => he
  | inPlace => exact fun e he => List.mem_cons_of_mem _ he
  | later _ ih => exact fun e he => List.mem_cons_of_mem _ (ih e he)
  | landing => exact fun e he => he

/-- The files of one key once its record was moved aside. -/
structure Begun (root : Path) (e : JournalEntry) (c c₁ : Contents) : Prop where
  same : SameBut e.key c c₁
  staging : c₁ e.key.components stagingName = c e.key.components stagingName
  replaced : e.replaces = true → (backupPath root e.key).InLimits ∧
    c₁ e.key.components backupName = c e.key.components recordName ∧
    c₁ e.key.components recordName = none
  fresh : e.replaces = false → c₁ = c

theorem begun_move (hrep : e.replaces = true) (hl : (backupPath root e.key).InLimits) :
    Begun root e c (c.move e.key.components recordName backupName) where
  same := sameBut_move e.key isShelf_record isShelf_backup
  staging := Contents.move_of_ne _ fun _ => ⟨by decide, by decide⟩
  replaced _ := ⟨hl, Contents.move_target _ _ _ _, Contents.move_source _ (by decide)⟩
  fresh hnew := nomatch hrep.symm.trans hnew

/-- The record of an entry is moved aside, over whatever was left over, or nothing happens. -/
theorem leads_moveAside_any (h : Poised root e c) :
    Leads root F (fun _ => True) c (moveAside root e).run fun
      | .ok (), c' => Begun root e c c'
      | .error err, c' => c' = c ∧ e.replaces = true ∧
          ∃ f, err = .io (Path.text (backupPath root e.key)) f := by
  unfold moveAside
  by_cases hrep : e.replaces = true
  · rw [if_pos hrep]
    exact leads_step (leads_rename (by decide) (by decide) (by decide) (h.record.mp hrep) trivial
      (fun hl _ => ⟨trivial, begun_move hrep hl⟩) fun f _ => ⟨rfl, hrep, f, rfl⟩)
  · rw [if_neg hrep]
    exact leads_pure_task trivial
      ⟨fun _ _ _ => rfl, rfl, fun hreplaces => absurd hreplaces hrep, fun _ => rfl⟩

theorem Begun.restores {c₁ : Contents} (h : Begun root e c c₁) (hp : Poised root e c) :
    Restores root c e c₁ := by
  by_cases hrep : e.replaces = true
  · obtain ⟨hl, hbackup, hrecord⟩ := h.replaced hrep
    refine restores_of_backup hrep hl (hp.record.mp hrep) hbackup ?_
    rw [hrecord]
    exact fun hd => nomatch hd
  · obtain rfl := h.fresh (by simpa using hrep)
    exact hp.restores_of_new (by simpa using hrep)

/-- With the new record in its place the committed one can still be brought back. -/
theorem Begun.restores_of_putInPlace {c₁ : Contents} (h : Begun root e c c₁)
    (hp : Poised root e c) (hwrite : e.write = true)
    (hfree : c₁ e.key.components recordName ≠ some .directory) :
    Restores root c e (c₁.move e.key.components stagingName recordName) := by
  obtain ⟨hl, s, hs⟩ := hp.staging hwrite
  rw [← h.staging] at hs
  by_cases hrep : e.replaces = true
  · obtain ⟨hlimit, hbackup, -⟩ := h.replaced hrep
    refine restores_of_backup hrep hlimit (hp.record.mp hrep) ?_ ?_
    · rw [Contents.move_of_ne _ fun _ => ⟨by decide, by decide⟩, hbackup]
    · rw [Contents.move_target, hs]
      exact fun hd => nomatch hd
  · have hnew : e.replaces = false := by simpa using hrep
    obtain rfl := h.fresh hnew
    have hnone : c₁ e.key.components recordName = none :=
      eq_none_of_not_isFile (fun hf => hrep (hp.record.mpr hf)) hfree
    unfold Restores
    -- Undoing removes the record that was put there, which leaves none, as before.
    rw [record_rolledBack_of_new hnew hwrite, Contents.clear_eq_drop fun _ => recordPath_inLimits hl,
      Contents.drop, Contents.move_target, hs, if_pos (isFile_file s), Contents.set_self, hnone]

/-- The staged record of an entry is put in its place, or nothing happens. -/
theorem leads_putInPlace_any {c₁ : Contents} (h : Begun root e c c₁) (hp : Poised root e c) :
    Leads root F (fun _ => True) c₁ (putInPlace root e).run fun r c' =>
      SameBut e.key c c' ∧ Restores root c e c' ∧ ∀ err, r = .error err → e.write = true ∧
        ∃ f, err = .io (Path.text (recordPath root e.key)) f := by
  unfold putInPlace
  by_cases hwrite : e.write = true
  · rw [if_pos hwrite]
    have hfile : IsFile (c₁ e.key.components stagingName) := by
      rw [h.staging]
      exact (hp.staging hwrite).2
    refine leads_step (leads_rename (by decide) (by decide) (by decide) hfile trivial
      (fun _ hfree => ⟨trivial, ?_⟩) fun f _ => ?_)
    · exact ⟨h.same.trans (sameBut_move e.key isShelf_staging isShelf_record),
        h.restores_of_putInPlace hp hwrite hfree, fun _ => (nomatch ·)⟩
    · refine ⟨h.same, h.restores hp, fun err herr => ⟨hwrite, f, ?_⟩⟩
      exact (Except.error.inj herr).symm
  · rw [if_neg hwrite]
    exact leads_pure_task trivial ⟨h.same, h.restores hp, fun _ => (nomatch ·)⟩

/-- Applying one entry fails before it was begun or after, and it can be undone unless it was not
begun. -/
theorem leads_applyOne_any (h : Poised root e c) :
    Leads root F (fun _ => True) c (applyOne root e).run fun
      | .ok (), c' => SameBut e.key c c' ∧ Restores root c e c'
      | .error err, c' =>
        (c' = c ∧ e.replaces = true ∧ ∃ f, err = .io (Path.text (backupPath root e.key)) f) ∨
          ((SameBut e.key c c' ∧ Restores root c e c') ∧ e.write = true ∧
            ∃ f, err = .io (Path.text (recordPath root e.key)) f) := by
  rw [applyOne_eq]
  refine leads_bind_task ((leads_moveAside_any h).imp ?_)
  rintro (err | u) c₁ hc₁
  · exact .inl hc₁
  · intro _
    refine (leads_putInPlace_any hc₁ h).imp ?_
    rintro (err | u) c₂ ⟨hsame, hone, hstop⟩
    · exact .inr ⟨⟨hsame, hone⟩, hstop err rfl⟩
    · exact ⟨hsame, hone⟩

theorem SameBut.sameAt {k k' : Key} (h : SameBut k c c') (hk : k' ≠ k) :
    SameAt k'.components c c' := fun n => h.other hk n

/-- What applying entries leads to: each can be undone but the pending ones, which are untouched. -/
structure Stopped (root : Path) (c : Contents) (l pending : List JournalEntry) (c' : Contents) :
    Prop where
  frame : ∀ d n, (IsShelf n → ∀ e ∈ l, d ≠ e.key.components) → c' d n = c d n
  begun : ∀ e ∈ l, e ∉ pending → Restores root c e c'
  untouched : ∀ e ∈ pending, SameAt e.key.components c c'

theorem Stopped.cons {c₁ : Contents} (hnot : ∀ e' ∈ l, e'.key ≠ e.key) (hsame : SameBut e.key c c₁)
    (hone : Restores root c e c₁) (hpending : ∀ e ∈ pending, e ∈ l)
    (h : Stopped root c₁ l pending c') : Stopped root c (e :: l) pending c' := by
  refine ⟨fun d n hdn => ?_, fun e' he' hnp => ?_, fun e' he' => ?_⟩
  · rw [h.frame d n fun hn e' he' => hdn hn e' (List.mem_cons_of_mem _ he')]
    exact hsame d n fun hd hn => hdn hn e List.mem_cons_self hd
  · rcases List.mem_cons.mp he' with rfl | hmem
    · refine hone.congr fun n => h.frame _ n fun _ e'' he'' hcomp => ?_
      exact hnot e'' he'' (Key.ext hcomp.symm)
    · exact (h.begun e' hmem hnp).trans (hsame.other (hnot e' hmem) _)
  · intro n
    rw [h.untouched e' he' n, hsame.other (hnot e' (hpending e' he')) n]

/-- **Applying entries stops at one of them**, with those after it untouched. -/
theorem leads_applyEach_any (hl : (l.map (·.key)).Nodup) (h : ∀ e ∈ l, Poised root e c) :
    Leads root F (fun _ => True) c (applyEach root l).run fun
      | .ok (), c' => Stopped root c l [] c'
      | .error err, c' => ∃ pending, StopsAt root l err pending ∧ Stopped root c l pending c' := by
  -- The contents are general. An entry that stops the run is pending if it was not begun, and all
  -- after it are.
  induction l generalizing c with
  | nil =>
    exact leads_pure_task trivial
      ⟨fun _ _ _ => rfl, fun _ he => absurd he List.not_mem_nil,
        fun _ he => absurd he List.not_mem_nil⟩
  | cons e l ih =>
    obtain ⟨hnotmem, hrest⟩ := List.nodup_cons.mp hl
    have hnot : ∀ e' ∈ l, e'.key ≠ e.key := fun e' he' hk =>
      hnotmem (List.mem_map.mpr ⟨e', he', hk⟩)
    unfold applyEach
    refine leads_bind_task ((leads_applyOne_any (h e List.mem_cons_self)).imp ?_)
    rintro (err | u) c₁ hc₁
    · rcases hc₁ with ⟨rfl, hrep, f, rfl⟩ | ⟨⟨hsame, hone⟩, hwrite, f, rfl⟩
      · exact ⟨e :: l, .aside hrep, fun _ _ _ => rfl, fun e' he' hnp => absurd he' hnp,
          fun _ _ _ => rfl⟩
      · refine ⟨l, .inPlace hwrite, Stopped.cons hnot hsame hone (fun _ he => he) ?_⟩
        exact ⟨fun _ _ _ => rfl, fun e' he' hnp => absurd he' hnp, fun _ _ _ => rfl⟩
    · obtain ⟨hsame, hone⟩ := hc₁
      intro _
      have ih := ih hrest fun e' he' =>
        (h e' (List.mem_cons_of_mem _ he')).congr (hsame.sameAt (hnot e' he'))
      refine ih.imp ?_
      rintro (err | u) c' hc'
      · obtain ⟨pending, hstops, hstopped⟩ := hc'
        exact ⟨pending, .later hstops, Stopped.cons hnot hsame hone hstops.subset hstopped⟩
      · exact Stopped.cons hnot hsame hone (fun _ he => absurd he List.not_mem_nil) hc'

/-! ## Before and after the entries -/

/-- Removing the journal does nothing else. -/
theorem leads_removeJournal_any (root : Path) (c : Contents) :
    Leads root F (fun _ => True) c (removeJournal root).run fun r c' =>
      (∀ d n, (d = [] → n ≠ journalName) → c' d n = c d n) ∧
        ∀ err, r = .error err → c' = c ∧ ∃ f, err = .io (Path.text (journalPath root)) f := by
  unfold removeJournal
  rw [journalPath_eq]
  refine leads_step (leads_removeIfPresent (by decide) trivial (fun _ _ => ⟨trivial, ?_⟩)
    (fun _ => ⟨fun _ _ _ => rfl, fun _ => (nomatch ·)⟩) fun f _ => ⟨fun _ _ _ => rfl, ?_⟩)
  · exact ⟨fun d n hdn => Contents.set_of_ne _ _ fun hd hne => hdn hd.symm hne.symm,
      fun _ => (nomatch ·)⟩
  · intro err herr
    exact ⟨rfl, f, (Except.error.inj herr).symm⟩

/-- Landing stops at an entry or, once all are applied, at the journal. -/
theorem leads_land_any (hl : (l.map (·.key)).Nodup) (h : ∀ e ∈ l, Poised root e c) :
    Leads root F (fun _ => True) c (land root l).run fun r c' => ∀ err, r = .error err →
      ∃ pending, StopsAt root l err pending ∧ Stopped root c l pending c' := by
  unfold land
  refine leads_bind_task ((leads_applyEach_any hl h).imp ?_)
  rintro (err | u) c₁ hc₁
  · intro err' herr
    obtain rfl := Except.error.inj herr
    exact hc₁
  · intro _
    refine (leads_removeJournal_any root c₁).imp ?_
    rintro r c' ⟨-, hstop⟩ err herr
    obtain ⟨rfl, f, rfl⟩ := hstop err herr
    exact ⟨[], .of_landing l f, hc₁⟩

/-- The journal is written and every entry can be applied. -/
structure Loaded (root : Path) (G : Contents) (entries : List JournalEntry) (c : Contents) :
    Prop where
  kept : ∀ d n, n ≠ stagingName → (d = [] → n ≠ journalStagingName ∧ n ≠ journalName) →
    c d n = G d n
  poised : ∀ e ∈ entries, Poised root e c

theorem poised_of_planned (h : Staging root G L c) (hs : Staged root L c)
    (he : e ∈ L.filterMap (planned root G)) : Poised root e c := by
  obtain ⟨hor, hrep, v, hmem, hw⟩ := mem_planned_iff.mp he
  have hstaging : e.write = true →
      (stagingPath root e.key).InLimits ∧ IsFile (c e.key.components stagingName) := by
    intro hwrite
    cases v with
    | none => exact absurd (hw.symm.trans hwrite) (by simp)
    | some j =>
      obtain ⟨hl, hfile⟩ := hs e.key j hmem
      exact ⟨hl, hfile ▸ isFile_file _⟩
  refine ⟨⟨fun hr => ?_, fun hf => ?_⟩, hstaging, hor⟩
  · rw [hrep, replaced_iff] at hr
    rw [h.record]
    exact hr.2
  · rcases hor with hwrite | hr
    · rw [hrep, replaced_iff, ← h.record]
      exact ⟨recordPath_inLimits (hstaging hwrite).1, hf⟩
    · exact hr

/-- Writing the journal touches nothing but the journal. -/
theorem leads_writeJournal_any (root : Path) (entries : List JournalEntry) (c : Contents) :
    Leads root F (fun _ => True) c (writeJournal root entries).run fun _ c' =>
      ∀ d n, (d = [] → n ≠ journalStagingName ∧ n ≠ journalName) → c' d n = c d n := by
  have hset : ∀ (e : Option Entry) d n, (d = [] → n ≠ journalStagingName ∧ n ≠ journalName) →
      c.set [] journalStagingName e d n = c d n := fun e d n hdn =>
    Contents.set_of_ne _ _ fun hd hne => (hdn hd.symm).1 hne.symm
  unfold writeJournal
  rw [journalStagingPath_eq, journalPath_eq]
  refine leads_bind_task (leads_step (leads_write (by decide) trivial (fun _ _ => trivial)
    (fun _ _ => ?_) (fun _ _ _ => hset _) fun _ _ _ _ => rfl))
  refine leads_step (leads_rename (by decide) (by decide) (by decide) ?_ trivial
    (fun _ _ => ⟨trivial, fun d n hdn => ?_⟩) fun _ _ => hset _)
  · rw [Contents.set_self]
    exact isFile_file _
  · rw [Contents.move_of_ne _ fun hd => ⟨(hdn hd.symm).1.symm, (hdn hd.symm).2.symm⟩]
    exact hset _ d n hdn

theorem Loaded.of_staging (h : Staging root G L c) (hs : Staged root L c)
    (hframe : ∀ d n, (d = [] → n ≠ journalStagingName ∧ n ≠ journalName) → c' d n = c d n) :
    Loaded root G (L.filterMap (planned root G)) c' := by
  refine ⟨fun d n hn hd => ?_, fun e he => ?_⟩
  · rw [hframe d n hd, h.others d n (fun hroot => (hd hroot).1) fun hs => absurd hs hn]
  · have hp := poised_of_planned h hs he
    refine ⟨?_, ?_, hp.changes⟩
    · rw [hframe _ _ fun _ => by decide]
      exact hp.record
    · rw [hframe _ _ fun _ => by decide]
      exact hp.staging

/-- A commit that fails after its journal was written has stopped at one of its entries. -/
theorem leads_attempt_any (h : Staging root G L G) (hL : (L.map (·.1)).Nodup) :
    Leads root F (fun _ => True) G (attempt root L) fun p c => ∀ entries err,
      p = .unlanded entries err → entries = L.filterMap (planned root G) ∧
        ∃ pending c₀, StopsAt root entries err pending ∧ Loaded root G entries c₀ ∧
          Stopped root c₀ entries pending c := by
  have htrue : ∀ {P : Contents → Prop} (c : Contents), P c → True := fun _ _ => trivial
  unfold attempt
  refine Leads.bind ((leads_prepare_all h hL).mono id htrue ?_)
  rintro r c₁ ⟨hstaging, hr⟩ _
  rcases r with err | entries
  · exact leads_pure trivial fun _ _ => (nomatch ·)
  obtain ⟨hplanned, hstaged⟩ := hr entries rfl
  cases entries with
  | nil => exact leads_pure trivial fun _ _ => (nomatch ·)
  | cons e rest =>
    refine Leads.bind ((leads_writeJournal_any root (e :: rest) c₁).imp fun r c₂ hc₂ _ => ?_)
    rcases r with err | u
    · exact leads_pure trivial fun _ _ => (nomatch ·)
    · -- From here on the journal is in place, and only the landing can fail.
      have hloaded := Loaded.of_staging hstaging hstaged hc₂
      rw [← hplanned] at hloaded
      have hnodup : ((e :: rest).map (·.key)).Nodup := hplanned ▸ nodup_planned hL
      refine Leads.bind ((leads_land_any hnodup hloaded.poised).imp fun r c₃ hc₃ _ => ?_)
      rcases r with err | u
      · refine leads_pure trivial fun entries' err' hp => ?_
        obtain ⟨rfl, rfl⟩ := Progress.unlanded.inj hp
        obtain ⟨pending, hstops, hstopped⟩ := hc₃ err rfl
        exact ⟨hplanned, pending, c₂, hstops, hloaded, hstopped⟩
      · exact leads_pure trivial fun _ _ => (nomatch ·)

/-! ## Rolling back -/

/-- Undoing the entries leads to what they lead to one after another, but for the journal. -/
theorem leads_undo_eq (root : Path) (entries : List JournalEntry) (c : Contents) :
    Leads root False (fun _ => True) c (undo root entries) fun _ c' =>
      ∀ d n, (d = [] → n ≠ journalName) →
        c' d n = entries.reverse.foldl (rolledBack root) c d n := by
  unfold undo rollBack
  refine Leads.bind ((leads_rollBackEach_eq root entries.reverse c).imp fun _ c₁ hc₁ _ => ?_)
  subst hc₁
  exact leads_discard ((leads_removeJournal_any root _).imp fun _ c' hc' => hc'.1)

/-- A pending entry that replaces a record finds a backup that was left over. -/
def Resurrects (G : Contents) (e : JournalEntry) : Prop :=
  e.replaces = true ∧ IsFile (G e.key.components backupName)

/-- What a commit that was rolled back has changed. -/
structure Reverted (G : Contents) (pending : List JournalEntry) (c : Contents) : Prop where
  resurrected : ∀ e ∈ pending, Resurrects G e →
    c e.key.components recordName = G e.key.components backupName
  record : ∀ d, (∀ e ∈ pending, Resurrects G e → d ≠ e.key.components) →
    c d recordName = G d recordName
  plain : ∀ d n, isHidden n = false → c d n = G d n

/-- **Rolling back what stopped at an entry.** -/
theorem Stopped.reverted {c₀ c₁ : Contents} (hl : (entries.map (·.key)).Nodup)
    (hsub : ∀ e ∈ pending, e ∈ entries)
    (hlimit : ∀ d, IsFile (G d backupName) → (place root d backupName).InLimits)
    (hloaded : Loaded root G entries c₀) (h : Stopped root c₀ entries pending c₁)
    (hc : ∀ d n, (d = [] → n ≠ journalName) →
      c d n = entries.reverse.foldl (rolledBack root) c₁ d n) : Reverted G pending c := by
  have hl' : (entries.reverse.map (·.key)).Nodup := by
    rw [List.map_reverse]
    exact List.nodup_reverse.mpr hl
  have hrecord₀ : ∀ d, c₀ d recordName = G d recordName := fun d =>
    hloaded.kept d _ (by decide) fun _ => by decide
  have hbackup₀ : ∀ d, c₀ d backupName = G d backupName := fun d =>
    hloaded.kept d _ (by decide) fun _ => by decide
  -- The keys are distinct, so each record depends on its own entry alone. A begun entry is
  -- restored; a pending one was not touched, and what it finds as a backup is from an earlier
  -- commit.
  have hundone : ∀ e ∈ entries, c e.key.components recordName =
      rolledBack root c₁ e e.key.components recordName := fun e he => by
    rw [hc _ _ fun _ => by decide]
    exact rolledBackEach_apply root c₁ hl' (List.mem_reverse.mpr he) recordName
  have hpending : ∀ e ∈ pending, c e.key.components recordName =
      if e.replaces = true ∧ IsFile (G e.key.components backupName) then
        G e.key.components backupName else G e.key.components recordName := fun e he => by
    rw [hundone e (hsub e he), sameAt_rolledBack (h.untouched e he) recordName,
      (hloaded.poised e (hsub e he)).record_rolledBack fun hf => hlimit _ (hbackup₀ _ ▸ hf),
      hbackup₀, hrecord₀]
  have hframe : ∀ d n, (d = [] → n ≠ journalName) →
      (IsShelf n → ∀ e ∈ entries, d ≠ e.key.components) → c d n = c₀ d n := fun d n hd hn => by
    rw [hc d n hd, rolledBackEach_frame fun hs e he => hn hs e (List.mem_reverse.mp he),
      h.frame d n hn]
  refine ⟨fun e he hres => ?_, fun d hd => ?_, fun d n hn => ?_⟩
  · rw [hpending e he]
    exact if_pos hres
  · by_cases hentry : ∃ e ∈ entries, d = e.key.components
    · obtain ⟨e, he, rfl⟩ := hentry
      by_cases hp : e ∈ pending
      · rw [hpending e hp]
        exact if_neg fun hres => hd e hp hres rfl
      · rw [hundone e he, h.begun e he hp, hrecord₀]
    · rw [hframe d _ (fun _ => by decide) fun _ e he hde => hentry ⟨e, he, hde⟩, hrecord₀]
  · have hne : ∀ m, isHidden m = true → n ≠ m := by
      rintro m hm rfl
      rw [hm] at hn
      cases hn
    rw [hframe d n (fun _ => hne _ (by decide)) fun hs => ?_,
      hloaded.kept d n (hne _ (by decide)) fun _ => ⟨hne _ (by decide), hne _ (by decide)⟩]
    rcases hs with rfl | rfl | rfl <;> exact absurd hn (by decide)

/-! ## Transactions that fail -/

variable {α ε : Type} {t : FileTree} {plan : List (Option Fault)} {d : Disk}
  {tx : Transaction ε α}

/-- A commit that fails after its journal was written is rolled back as far as its files tell. -/
theorem commit_runUnder_unlanded {staged : Changes} (hr : t.get? root = some .directory)
    (h : Staging root (contents root t) staged.toList (contents root t))
    (hfails : ((attempt root staged.toList).runUnder plan t).1 = .unlanded entries err)
    (hquiet : ∀ f ∈ ((attempt root staged.toList).runUnder plan t).2.1, f = none) :
    entries = staged.toList.filterMap (planned root (contents root t)) ∧
      ∃ pending rest t', StopsAt root entries err pending ∧
        (commit root staged).runUnder plan t = (.error err, rest, t') ∧
        Stored root (Reverted (contents root t) pending) t' := by
  have hL := nodup_keys staged
  obtain ⟨hr₁, hattempt⟩ := ((leads_attempt_any (F := True) h hL).meets hr).runUnder plan
  obtain ⟨hentries, pending, c₀, hstops, hloaded, hstopped⟩ := hattempt entries err hfails
  have hundo := ((leads_undo_eq root entries _).meets hr₁).run
  -- No fault strikes the rollback, so it runs as the tree has it.
  obtain ⟨rest, hclean⟩ := Script.runUnder_of_quiet
    (cleanUp root staged.toList (.unlanded entries err)) hquiet
    ((attempt root staged.toList).runUnder plan t).2.2
  have hcommit : (commit root staged).runUnder plan t = (.error err, rest,
      ((undo root entries).run ((attempt root staged.toList).runUnder plan t).2.2).2) := by
    rw [commit_eq, Script.runUnder_bind, hfails, hclean, cleanUp, Script.run_bind]
    rfl
  refine ⟨hentries, pending, rest, _, hstops, hcommit, hundo.1, ?_⟩
  exact hstopped.reverted (hentries ▸ nodup_planned hL) hstops.subset
    (fun d hf => h.sweepable d _ (by decide) hf) hloaded hundo.2

/-- **A failed commit puts superseded records in the place of those it has not begun to replace.**
Backups of earlier commits may have been left over. Whatever faults strike a transaction, if it
fails after its journal was written and no fault strikes the rolling back, then every record is what
it was before, except where a pending entry finds a backup that was left over: there it is the
record from that backup. -/
theorem failed_transact_leftover (tx : Transaction ε α) (plan : List (Option Fault)) {a : α}
    {o : Overlay} (hpoisoned : d.poisoned = false) (hr : t.get? d.root = some .directory)
    (hleft : ∀ p n, isLeftover n = true → IsFile (t.get? (place d.root p n)) →
      (place d.root p n).InLimits)
    (hrun : Overlay.run ⟨snapshot d.root t, ∅⟩ tx = (.done a, o))
    (hfails : ((attempt d.root o.staged.toList).runUnder plan t).1 = .unlanded entries err)
    (hquiet : ∀ f ∈ ((attempt d.root o.staged.toList).runUnder plan t).2.1, f = none) :
    entries = o.staged.toList.filterMap (planned d.root (contents d.root t)) ∧
    ∃ pending rest t', StopsAt d.root entries err pending ∧
      (d.transact tx).runUnder plan t = ((.failed err, d), rest, t') ∧
      (∀ e ∈ pending, e.replaces = true → ∀ b,
        t.get? (backupPath d.root e.key) = some (.file b) →
          t'.get? (recordPath d.root e.key) = some (.file b)) ∧
      (∀ k, (recordPath d.root k).InLimits →
        (∀ e ∈ pending, e.key = k → e.replaces = true →
          ¬ IsFile (t.get? (backupPath d.root k))) →
        recordAt d.root t' k = recordAt d.root t k) ∧
      ((∀ e ∈ pending, e.replaces = true → ¬ IsFile (t.get? (backupPath d.root e.key))) →
        ∀ r, recordsIn d.root t' r = recordsIn d.root t r) := by
  have hstaging : Staging d.root (contents d.root t) o.staged.toList (contents d.root t) :=
    ⟨fun _ _ _ _ => rfl, fun p n hn hf => hleft p n hn (isFile_contents_iff.mp hf)⟩
  have hbackup : ∀ k : Key, t.get? (backupPath d.root k) =
      contents d.root t k.components backupName := fun k => by
    rw [backupPath_eq, contents_of_hidden (by decide)]
  obtain ⟨hentries, pending, rest, t', hstops, hcommit, hr', hreverted⟩ :=
    commit_runUnder_unlanded hr hstaging hfails hquiet
  refine ⟨hentries, pending, rest, t', hstops, ?_, fun e he hrep b hb => ?_, fun k hk hnone => ?_,
    fun hnone r => ?_⟩
  · rw [transact_runUnder hpoisoned hrun, hcommit]
  · rw [hbackup] at hb
    rw [recordPath_eq, ← contents_record, hreverted.resurrected e he ⟨hrep, b, hb⟩, hb]
  · refine recordAt_eq_of_record hr hr' hk (hreverted.record _ fun e he hres hcomp => ?_)
      hreverted.plain
    obtain rfl := Key.ext hcomp
    exact hnone e he rfl hres.1 (hbackup _ ▸ hres.2)
  · refine recordsIn_congr (sameRecords_of_eq fun p => hreverted.record p fun e he hres => ?_) r
    exact absurd (hbackup _ ▸ hres.2) (hnone e he hres.1)

/-! ### A backup that could not be dropped -/

/-- A plan by which one call is struck by a fault, after so many that are not. -/
def struckAfter (n : Nat) : List (Option Fault) :=
  List.replicate n none ++ [some ⟨.isADirectory, none, by decide⟩]

/-- A transaction that writes the record of the root key. -/
def writeRootAs (v : Json) : Transaction Unit Unit := .write .root v (.done ())

/-- The store after the second of two commits of the root key could not drop its backup. -/
def leftoverTree : FileTree :=
  (FileTree.empty.place [recordName] (.file (recordBytes (.bool true)))).place [backupName]
    (.file (recordBytes .null))

theorem inLimits_leftoverTree (p : Path) (n : String) (hn : isLeftover n = true)
    (hf : IsFile (leftoverTree.get? (place [] p n))) : (place [] p n).InLimits := by
  rw [leftoverTree, FileTree.get?_place (by decide), FileTree.get?_place (by decide)] at hf
  by_cases hbackup : [backupName] = place [] p n
  · rw [← hbackup]
    decide
  · rw [if_neg hbackup] at hf
    by_cases hrecord : [recordName] = place [] p n
    · obtain ⟨rfl, rfl⟩ := place_inj.mp (show place [] [] recordName = place [] p n from hrecord)
      exact absurd hn (by decide)
    · rw [if_neg hrecord] at hf
      cases p <;> exact absurd hf not_isFile_none

theorem superseded_leftoverTree : ∃ rest t',
    ((⟨[], false⟩ : Disk).transact (writeRootAs (.bool false))).runUnder (struckAfter 3)
        leftoverTree = ((.failed (.io "/.record.json.bak" .isADirectory), ⟨[], false⟩), rest, t') ∧
      t'.get? (recordPath [] .root) = some (.file (recordBytes .null)) := by
  have hfails : ((attempt [] [(Key.root, some (.bool false))]).runUnder (struckAfter 3)
      leftoverTree).1 = .unlanded [⟨.root, true, true⟩]
        (.io (Path.text (backupPath [] .root)) .isADirectory) := rfl
  obtain ⟨-, pending, rest, t', hstops, hrun, hresurrected, -⟩ :=
    failed_transact_leftover (d := ⟨[], false⟩) (t := leftoverTree)
      (writeRootAs (.bool false)) (struckAfter 3) rfl rfl inLimits_leftoverTree rfl hfails
      (by decide +kernel)
  have hpending : pending = [⟨.root, true, true⟩] := by
    -- The error names the backup, so the first entry was not begun.
    generalize herr : StorageError.io (Path.text (backupPath [] .root)) .isADirectory = err
      at hstops
    cases hstops with
    | aside => rfl
    | inPlace =>
      obtain ⟨hpath, -⟩ := StorageError.io.inj herr
      exact absurd hpath (by decide)
    | later hlater =>
      cases hlater
      obtain ⟨hpath, -⟩ := StorageError.io.inj herr
      exact absurd hpath (by decide)
  subst hpending
  exact ⟨rest, t', hrun, hresurrected _ List.mem_cons_self rfl _ rfl⟩

/-- A record is committed over another, the backup of which cannot be dropped. Then a commit that
fails in its first step brings the superseded record back. -/
theorem superseded_record_returns : ∃ t₁ rest₂ rest₃ t₃ err,
    ((⟨[], false⟩ : Disk).transact (writeRootAs .null)).run .empty =
      ((.committed (), ⟨[], false⟩), t₁) ∧
    ((⟨[], false⟩ : Disk).transact (writeRootAs (.bool true))).runUnder (struckAfter 6) t₁ =
      ((.committed (), ⟨[], false⟩), rest₂, leftoverTree) ∧
    recordAt [] leftoverTree .root = .ok (some (.bool true)) ∧
    ((⟨[], false⟩ : Disk).transact (writeRootAs (.bool false))).runUnder (struckAfter 3)
      leftoverTree = ((.failed err, ⟨[], false⟩), rest₃, t₃) ∧
    recordAt [] t₃ .root = .ok (some .null) := by
  refine ⟨_, _, _, _, _, rfl, rfl, ?_, rfl, ?_⟩
  · decide +kernel
  · decide +kernel

end AppRegistry.Disk
