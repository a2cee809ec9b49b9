import AppRegistry.Proofs.Disk.Prepare

/-!
# The last phases of a commit

From the journal on a commit is `Journaled`, and each entry is either as it was prepared (`Ready`)
or applied (`Applied`). Once the journal is gone the contents are `committed`, and what is left is
to drop the backups. If an entry cannot be applied, all of them are undone.

Main results: `leads_applyEach`, `leads_land`, `leads_finish` and `leads_undo`.
-/

namespace AppRegistry.Disk

variable {root : Path} {F : Prop} {G c c' : Contents} {L : List (Key × Option Json)}
  {entries : List JournalEntry} {e : JournalEntry}

/-! ## Applying the entries -/

/-- The files of one key after its entry was applied to the contents `c`. -/
structure Applied (e : JournalEntry) (c c' : Contents) : Prop where
  record : c' e.key.components recordName =
    if e.write then c e.key.components stagingName else none
  no_staging : ¬ IsFile (c' e.key.components stagingName)
  backup : e.replaces = false → ¬ IsFile (c' e.key.components backupName)

/-- Nothing stands in the way of applying an entry. -/
def Clear (root : Path) (e : JournalEntry) (c : Contents) : Prop :=
  (stagingPath root e.key).InLimits ∧ c e.key.components recordName ≠ some .directory ∧
    c e.key.components backupName ≠ some .directory

theorem Clear.congr {k : Key} (h : Clear root e c) (hsame : SameBut k c c') (hk : e.key ≠ k) :
    Clear root e c' := by
  unfold Clear
  rw [hsame.other hk, hsame.other hk]
  exact h

theorem Applied.congr {k : Key} {c₁ : Contents} (h : Applied e c₁ c') (hsame : SameBut k c c₁)
    (hk : e.key ≠ k) : Applied e c c' where
  record := by rw [h.record, hsame.other hk]
  no_staging := h.no_staging
  backup := h.backup

/-- The first step of applying an entry. -/
def moveAside (root : Path) (e : JournalEntry) : Task Unit :=
  if e.replaces then
    step (backupPath root e.key)
      (Script.make (.rename (recordPath root e.key) (backupPath root e.key)))
  else pure ()

/-- The second step of applying an entry. -/
def putInPlace (root : Path) (e : JournalEntry) : Task Unit :=
  if e.write then
    step (recordPath root e.key)
      (Script.make (.rename (stagingPath root e.key) (recordPath root e.key)))
  else pure ()

theorem applyOne_eq (root : Path) (e : JournalEntry) :
    applyOne root e = (moveAside root e >>= fun _ => putInPlace root e) := by
  unfold applyOne moveAside putInPlace
  cases e.replaces <;> cases e.write <;> simp

/-- The files of one key after the first step of applying its entry to the contents `c`. -/
structure Aside (e : JournalEntry) (c c₁ : Contents) : Prop where
  same : SameBut e.key c c₁
  staging : c₁ e.key.components stagingName = c e.key.components stagingName
  replaced : e.replaces = true →
    IsFile (c₁ e.key.components backupName) ∧ c₁ e.key.components recordName = none
  fresh : e.replaces = false → c₁ = c

/-- The committed record, if there is one, is moved aside. -/
theorem leads_moveAside (h : Journaled root G entries c) (he : e ∈ entries) (hr : Ready G e c) :
    Leads root F (Journaled root G entries) c (moveAside root e).run fun
      | .ok (), c' => Aside e c c'
      | .error _, _ => ¬ F → ¬ Clear root e c := by
  obtain ⟨hlimit, hu⟩ := h.undoable e he
  unfold moveAside
  by_cases hrep : e.replaces = true
  · rw [if_pos hrep] at hu ⊢
    obtain ⟨b, hG, -⟩ := hu
    have hb := hr.record.trans hG
    refine leads_step (leads_rename (by decide) (by decide) (by decide) ⟨b, hb⟩ h
      (fun hl _ => ⟨?_, ?_⟩) fun _ hblocked hF hclear => ?_)
    · -- With the record gone, the backup is what the entry is undone from.
      refine h.move he isShelf_record isShelf_backup (by decide) hl ⟨hlimit, ?_⟩
      rw [if_pos hrep]
      refine ⟨b, hG, .inr ⟨by rw [Contents.move_target, hb], ?_⟩⟩
      rw [Contents.move_source _ (by decide)]
      exact fun h => nomatch h
    · refine ⟨sameBut_move e.key isShelf_record isShelf_backup, ?_, fun _ => ⟨?_, ?_⟩, ?_⟩
      · exact Contents.move_of_ne _ fun _ => ⟨by decide, by decide⟩
      · rw [Contents.move_target, hb]
        exact isFile_file b
      · exact Contents.move_source _ (by decide)
      · exact fun hf => nomatch hrep.symm.trans hf
    · exact hclear.2.2 (hblocked hF hlimit (backupPath_inLimits hclear.1))
  · rw [if_neg hrep]
    exact leads_pure_task h ⟨fun _ _ _ => rfl, rfl, fun ht => absurd ht hrep, fun _ => rfl⟩

/-- With the new record in its place the key is undoable still. -/
theorem Aside.undoable {c₁ : Contents} (ha : Aside e c c₁) (h : Undoable root G e c₁)
    (hr : Ready G e c) (hw : e.write = true)
    (htarget : c₁ e.key.components recordName ≠ some .directory) :
    Undoable root G e (c₁.move e.key.components stagingName recordName) := by
  obtain ⟨s, hs⟩ := hr.staging.mpr hw
  obtain ⟨hlimit, hu⟩ := h
  refine ⟨hlimit, ?_⟩
  rw [Contents.move_target, ha.staging, hs, Contents.move_of_ne _ fun _ => ⟨by decide, by decide⟩]
  by_cases hrep : e.replaces = true
  · rw [if_pos hrep] at hu ⊢
    obtain ⟨b, hG, hu⟩ := hu
    refine ⟨b, hG, .inr ⟨?_, fun h => nomatch h⟩⟩
    -- The record was moved aside, so its bytes lie in the backup already.
    rcases hu with ⟨hnone, -⟩ | ⟨hb, -⟩
    · exact absurd (ha.replaced hrep).1 hnone
    · exact hb
  · rw [if_neg hrep] at hu ⊢
    obtain ⟨hG, hbak, -⟩ := hu
    refine ⟨hG, hbak, .inr ⟨hw, ?_, isFile_file s⟩⟩
    obtain rfl := ha.fresh (by simpa using hrep)
    exact eq_none_of_not_isFile hG (hr.record ▸ htarget)

/-- The staged record, if there is one, is put in its place. -/
theorem leads_putInPlace {c₁ : Contents} (h : Journaled root G entries c₁) (he : e ∈ entries)
    (hr : Ready G e c) (hor : e.write = true ∨ e.replaces = true) (ha : Aside e c c₁) :
    Leads root F (Journaled root G entries) c₁ (putInPlace root e).run fun
      | .ok (), c' => SameBut e.key c c' ∧ Applied e c c'
      | .error _, _ => ¬ F → ¬ Clear root e c := by
  have hbak : e.replaces = false → ¬ IsFile (c₁ e.key.components backupName) := fun hrep => by
    rw [ha.fresh hrep]
    exact hr.no_backup
  have hu := h.undoable e he
  unfold putInPlace
  by_cases hw : e.write = true
  · rw [if_pos hw]
    refine leads_step (leads_rename (by decide) (by decide) (by decide) ?_ h
      (fun hl htarget => ⟨?_, ?_⟩) fun _ hblocked hF hclear => ?_)
    · rw [ha.staging]
      exact hr.staging.mpr hw
    · exact h.move he isShelf_staging isShelf_record (by decide) hl (ha.undoable hu hr hw htarget)
    · refine ⟨ha.same.trans (sameBut_move e.key isShelf_staging isShelf_record), ?_, ?_, ?_⟩
      · rw [if_pos hw, Contents.move_target, ha.staging]
      · rw [Contents.move_source _ (by decide)]
        exact not_isFile_none
      · rw [Contents.move_of_ne _ fun _ => ⟨by decide, by decide⟩]
        exact hbak
    · have hdir := hblocked hF hclear.1 hu.1
      -- Only a directory stops the renaming, and a replaced record has just left its place.
      by_cases hrep : e.replaces = true
      · rw [(ha.replaced hrep).2] at hdir
        cases hdir
      · rw [ha.fresh (by simpa using hrep)] at hdir
        exact hclear.2.1 hdir
  · rw [if_neg hw]
    refine leads_pure_task h ⟨ha.same, ?_, ?_, hbak⟩
    · rw [if_neg hw]
      exact (ha.replaced (hor.resolve_left hw)).2
    · rw [ha.staging]
      exact fun hf => hw (hr.staging.mp hf)

/-- Applying an entry succeeds where nothing stands in the way. -/
theorem leads_applyOne (h : Journaled root G entries c) (he : e ∈ entries) (hr : Ready G e c)
    (hor : e.write = true ∨ e.replaces = true) :
    Leads root F (Journaled root G entries) c (applyOne root e).run fun
      | .ok (), c' => SameBut e.key c c' ∧ Applied e c c'
      | .error _, _ => ¬ F → ¬ Clear root e c := by
  rw [applyOne_eq]
  refine leads_bind_task ((leads_moveAside h he hr).imp ?_)
  rintro (err | u) c₁ hc₁
  · exact hc₁
  · exact fun hj => leads_putInPlace hj he hr hor hc₁

/-- Applying entries succeeds where nothing stands in the way of any. -/
theorem leads_applyEach {l : List JournalEntry} (hl : (l.map (·.key)).Nodup)
    (hsub : ∀ e ∈ l, e ∈ entries) (h : Journaled root G entries c)
    (hr : ∀ e ∈ l, Ready G e c) (hor : ∀ e ∈ l, e.write = true ∨ e.replaces = true) :
    Leads root F (Journaled root G entries) c (applyEach root l).run fun
      | .ok (), c' => (∀ e ∈ l, Applied e c c') ∧
          ∀ d n, (∀ e ∈ l, d ≠ e.key.components) → c' d n = c d n
      | .error _, _ => ¬ F → ∃ e ∈ l, ¬ Clear root e c := by
  -- The contents are general: each entry is applied to what the ones before it have left. What is
  -- ready or clear for the rest stays so, as the keys differ.
  induction l generalizing c with
  | nil =>
    exact leads_pure_task h ⟨fun e he => absurd he List.not_mem_nil, fun _ _ _ => rfl⟩
  | cons e l ih =>
    obtain ⟨hnot, hrest⟩ := List.nodup_cons.mp hl
    have hne : ∀ e' ∈ l, e'.key ≠ e.key := fun e' he' hk =>
      hnot (List.mem_map.mpr ⟨e', he', hk⟩)
    have htail : ∀ e' ∈ l, e' ∈ e :: l := fun e' he' => List.mem_cons_of_mem e he'
    unfold applyEach
    refine leads_bind_task ((leads_applyOne h (hsub e List.mem_cons_self) (hr e List.mem_cons_self)
      (hor e List.mem_cons_self)).imp ?_)
    rintro (err | u) c₁ hc₁
    · exact fun hF => ⟨e, List.mem_cons_self, hc₁ hF⟩
    obtain ⟨hsame, happlied⟩ := hc₁
    intro hj
    refine (ih hrest (fun e' he' => hsub e' (htail e' he')) hj
      (fun e' he' => (hr e' (htail e' he')).congr hsame (hne e' he'))
      fun e' he' => hor e' (htail e' he')).imp ?_
    rintro (err | u) c' hc'
    · intro hF
      obtain ⟨e', he', hclear⟩ := hc' hF
      exact ⟨e', htail e' he', fun hc => hclear (hc.congr hsame (hne e' he'))⟩
    obtain ⟨happlied', hframe⟩ := hc'
    refine ⟨List.forall_mem_cons.mpr ⟨?_, fun e' he' => ?_⟩, fun d n hd => ?_⟩
    · have hkept : ∀ n, c' e.key.components n = c₁ e.key.components n := fun n =>
        hframe _ n fun e' he' hcomp => hne e' he' (Key.ext hcomp.symm)
      exact ⟨by rw [hkept, happlied.record], by rw [hkept]; exact happlied.no_staging,
        fun hrep => by rw [hkept]; exact happlied.backup hrep⟩
    · exact (happlied' e' he').congr hsame (hne e' he')
    · rw [hframe d n fun e' he' => hd e' (htail e' he'),
        hsame d n fun hcomp => absurd hcomp (hd e List.mem_cons_self)]

/-! ## Landing -/

/-- What stands for the record of a key once a change of it is made. -/
def changed (root : Path) (G : Contents) (k : Key) : Option Json → Option Entry
  | some j => some (.file (recordBytes j))
  | none => if replaced root G k then none else G k.components recordName

/-- The contents once the changes are made. -/
def committed (root : Path) (G : Contents) (L : List (Key × Option Json)) : Contents := fun d n =>
  if n = recordName then
    match L.find? (fun x => x.1.components = d) with
    | some (k, v) => changed root G k v
    | none => G d n
  else G d n

theorem committed_of_ne {n : String} (hn : n ≠ recordName) (d : Path) :
    committed root G L d n = G d n := if_neg hn

theorem find?_change (hL : (L.map (·.1)).Nodup) {k : Key} {v : Option Json} (h : (k, v) ∈ L) :
    L.find? (fun x => x.1.components = k.components) = some (k, v) := by
  cases hf : L.find? (fun x => x.1.components = k.components) with
  | none =>
    have := List.find?_eq_none.mp hf _ h
    simp at this
  | some x =>
    have hx := List.find?_some hf
    have hmem := List.mem_of_find?_eq_some hf
    have hk : x.1 = k := Key.ext (by simpa using hx)
    exact congrArg some (List.inj_on_of_nodup_map hL hmem h hk)

theorem committed_of_mem (hL : (L.map (·.1)).Nodup) {k : Key} {v : Option Json} (h : (k, v) ∈ L) :
    committed root G L k.components recordName = changed root G k v := by
  unfold committed
  rw [if_pos rfl, find?_change hL h]

theorem committed_of_not_mem {d : Path} (h : ∀ k v, (k, v) ∈ L → d ≠ k.components) (n : String) :
    committed root G L d n = G d n := by
  unfold committed
  split
  · rw [List.find?_eq_none.mpr fun x hx => by simpa using fun hd => h x.1 x.2 hx hd.symm]
  · rfl

/-- A change that has no entry changes nothing: it deletes a record that is not there. -/
theorem committed_of_no_entry (hL : (L.map (·.1)).Nodup) {d : Path} {n : String}
    (h : n = recordName → ∀ e ∈ L.filterMap (planned root G), d ≠ e.key.components) :
    committed root G L d n = G d n := by
  by_cases hn : n = recordName
  · subst hn
    by_cases hmem : ∃ k v, (k, v) ∈ L ∧ d = k.components
    · obtain ⟨k, v, hmem, rfl⟩ := hmem
      rw [committed_of_mem hL hmem]
      cases v with
      | some j =>
        exact absurd rfl (h rfl ⟨k, true, replaced root G k⟩
          (mem_planned_iff.mpr ⟨.inl rfl, rfl, _, hmem, rfl⟩))
      | none =>
        -- A deletion without an entry replaces nothing.
        apply if_neg
        intro hr
        exact h rfl ⟨k, false, true⟩ (mem_planned_iff.mpr ⟨.inr rfl, hr.symm, _, hmem, rfl⟩) rfl
    · exact committed_of_not_mem (fun k v hkv hd => hmem ⟨k, v, hkv, hd⟩) _
  · exact committed_of_ne hn d

/-- Once all entries are applied and the journal is gone, the changes are made. -/
theorem Journaled.landed {c₀ : Contents} (hL : (L.map (·.1)).Nodup)
    (hentries : entries = L.filterMap (planned root G)) (h : Journaled root G entries c)
    (hs : Staged root L c₀) (ha : ∀ e ∈ entries, Applied e c₀ c) :
    Settled root (committed root G L) (c.set [] journalName none) := by
  refine h.settled (fun e he => ?_) fun d n hkey => committed_of_no_entry hL (hentries ▸ hkey)
  have hmem := he
  rw [hentries, mem_planned_iff] at hmem
  obtain ⟨hor, hrep, v, hmem, hw⟩ := hmem
  rw [(ha e he).record, committed_of_mem hL hmem, hw]
  cases v with
  | some j => exact (hs e.key j hmem).2
  | none =>
    have hr : replaced root G e.key = true := hrep ▸ hor.resolve_left (by simp [hw])
    simp [changed, hr]

theorem leads_land (hL : (L.map (·.1)).Nodup) (h : Armed root G L c) :
    Leads root F (fun c => Journaled root G (L.filterMap (planned root G)) c ∨
        Settled root (committed root G L) c) c
      (land root (L.filterMap (planned root G))).run fun
      | .ok (), c' => ∃ c₁, Journaled root G (L.filterMap (planned root G)) c₁ ∧
          (∀ e ∈ L.filterMap (planned root G), Applied e c c₁) ∧ c' = c₁.set [] journalName none
      | .error _, c' => Journaled root G (L.filterMap (planned root G)) c' ∧
          (¬ F → ∃ e ∈ L.filterMap (planned root G), ¬ Clear root e c) := by
  unfold land
  refine leads_bind_task ((leads_applyEach (nodup_planned hL) (fun _ h => h) h.journaled h.ready
    fun e he => (mem_planned_iff.mp he).1).withInv (fun _ => .inl) ?_)
  rintro (err | u) c₁ hj hc₁
  · exact ⟨hj, hc₁⟩
  · intro _
    -- The removal of the journal is the commit point: before it the entries can be undone, after it
    -- they are settled.
    refine (leads_removeJournal _ ⟨_, hj.journal⟩ (.inl hj)
      (.inr (hj.landed hL rfl h.staged hc₁.1))).imp ?_
    rintro (err | u) c' hc'
    · exact ⟨hc'.1 ▸ hj, fun hF => absurd hj.inLimits (hc'.2 hF)⟩
    · exact ⟨c₁, hj, hc₁.1, hc'⟩

/-! ## After landing -/

theorem finish_cons (root : Path) (e : JournalEntry) (l : List JournalEntry) :
    finish root (e :: l) =
      ((if e.replaces then discard (Script.removeIfPresent (backupPath root e.key)) else pure ())
        >>= fun _ => (if !e.write then prune root e.key else pure ()) >>= fun _ =>
          finish root l) := by
  rw [finish]
  cases e.replaces <;> cases e.write <;> simp

/-- The files that are there after the last phase were there before and are not backups. -/
theorem leads_finish {l : List JournalEntry} (h : Settled root G c) :
    Leads root False (Settled root G) c (finish root l) fun _ c' =>
      ∀ d n, IsFile (c' d n) → IsFile (c d n) ∧
        ∀ e ∈ l, e.replaces = true → ¬ (d = e.key.components ∧ n = backupName) := by
  induction l generalizing c with
  | nil => exact leads_pure h fun d n hf => ⟨hf, fun e he => absurd he List.not_mem_nil⟩
  | cons e l ih =>
    -- Pruning removes directories only, and contents do not show those.
    have hprune : ∀ c', Settled root G c' → Leads root False (Settled root G) c'
        (if !e.write then prune root e.key else pure ()) fun _ c'' => c'' = c' := by
      intro c' h'
      split
      · exact leads_prune h' rfl
      · exact leads_pure h' rfl
    rw [finish_cons]
    by_cases hrep : e.replaces = true
    · rw [if_pos hrep]
      have hdrop : Settled root G (c.drop e.key.components backupName) := by
        unfold Contents.drop
        split
        · next hf =>
          exact h.sweep (sweeping_set (by decide) (h.sweepable _ _ (by decide) hf) hf)
        · exact h
      refine Leads.bind (leads_drop (by decide) (h.sweepable _ _ (by decide)) h hdrop fun hs => ?_)
      refine Leads.bind ((hprune _ hs).imp ?_)
      rintro _ _ rfl -
      apply (ih hs).imp
      intro _ c' hc' d n hf
      obtain ⟨hf', hl⟩ := hc' d n hf
      have hdn : ¬ (d = e.key.components ∧ n = backupName) := by
        rintro ⟨rfl, rfl⟩
        exact Contents.not_isFile_drop _ _ _ hf'
      refine ⟨?_, List.forall_mem_cons.mpr ⟨fun _ => hdn, hl⟩⟩
      rwa [Contents.drop_of_ne] at hf'
      exact fun hd hn => hdn ⟨hd.symm, hn.symm⟩
    · rw [if_neg hrep]
      refine Leads.bind (leads_pure h fun hs => ?_)
      refine Leads.bind ((hprune _ hs).imp ?_)
      rintro _ _ rfl -
      apply (ih hs).imp
      intro _ c' hc' d n hf
      exact ⟨(hc' d n hf).1, List.forall_mem_cons.mpr ⟨fun h => absurd h hrep, (hc' d n hf).2⟩⟩

/-! ## Undoing -/

/-- A commit that failed after its journal was written is undone. -/
def undo (root : Path) (entries : List JournalEntry) : Script Unit :=
  rollBack root entries >>= fun _ => discard (removeJournal root).run

/-- Once every entry is undone and the journal is gone, the store is at rest. -/
theorem Journaled.atRest (hG : AtRest root G) (h : Journaled root G entries c)
    (hu : ∀ e ∈ entries, Undone G e c) : AtRest root (c.set [] journalName none) := by
  -- Beside the keys of the entries, the commit has left the shelves as they were.
  have hleft : ∀ d n, IsShelf n → n ≠ recordName → (∀ e ∈ entries, d ≠ e.key.components) →
      (c.set [] journalName none) d n = G d n := by
    intro d n hn hrec hd
    rw [Contents.set_of_ne]
    · refine h.elsewhere d n (fun _ => ?_) fun _ => hd
      constructor <;> rintro rfl <;> revert hn <;> unfold IsShelf <;> decide
    · rintro - rfl
      revert hn
      unfold IsShelf
      decide
  refine ⟨fun d => ?_, fun d => ?_, ?_, fun d hf => ?_⟩
  · by_cases hd : ∃ e ∈ entries, d = e.key.components
    · obtain ⟨e, he, rfl⟩ := hd
      rw [Contents.set_of_ne _ _ fun _ => by decide]
      exact (hu e he).no_staging
    · rw [hleft d _ isShelf_staging (by decide) fun e he hne => hd ⟨e, he, hne⟩]
      exact hG.no_staging d
  · by_cases hd : ∃ e ∈ entries, d = e.key.components
    · obtain ⟨e, he, rfl⟩ := hd
      rw [Contents.set_of_ne _ _ fun _ => by decide]
      exact (hu e he).no_backup
    · rw [hleft d _ isShelf_backup (by decide) fun e he hne => hd ⟨e, he, hne⟩]
      exact hG.no_backup d
  · rw [Contents.set_self]
    exact not_isFile_none
  · rw [Contents.set_of_ne _ _ fun _ => by decide] at hf
    exact h.sweepable _ _ (by decide) hf

theorem leads_undo (hG : AtRest root G) (h : Journaled root G entries c) :
    Leads root False (Recoverable root G) c (undo root entries) fun _ c' =>
      Settled root G c' ∧ AtRest root c' := by
  unfold undo
  refine Leads.bind ((leads_rollBack h).withInv (fun _ h => .inr ⟨entries, h⟩) ?_)
  intro _ c₁ hj hu _
  have hs := hj.settled (fun e he => (hu e he).record) fun _ _ _ => rfl
  refine leads_discard ((leads_removeJournal _ ⟨_, hj.journal⟩ (.inr ⟨entries, hj⟩)
    (.inl ⟨h.before, hs⟩)).imp ?_)
  rintro (e | u) c' hc'
  · exact absurd hj.inLimits (hc'.2 id)
  · subst hc'
    exact ⟨hs, hj.atRest hG hu⟩

end AppRegistry.Disk
