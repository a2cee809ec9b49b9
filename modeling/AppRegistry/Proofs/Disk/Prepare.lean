import AppRegistry.Proofs.Disk.Opened

/-!
# The first phases of a commit

A commit of the changes `L` starts on a store at rest (`AtRest`), with contents `G`. Up to the
journal only staging files are written (`Staging`), so there is nothing to undo, and dropping the
staging files is all the clean-up there is. Once the journal is written, the commit is under way
(`Armed`).

Main results: `leads_prepare`, `leads_discardEach` and `leads_writeJournal`. Each says what holds
wherever the phase may be cut short, and what it leads to when it succeeds or fails.
-/

namespace AppRegistry.Disk

variable {root : Path} {F : Prop} {G c c' : Contents} {L : List (Key × Option Json)}
  {entries : List JournalEntry} {e : JournalEntry}

/-! ## What is planned -/

/-- Whether there is a record that a change of this key replaces. -/
def replaced (root : Path) (G : Contents) (k : Key) : Bool :=
  decide ((recordPath root k).InLimits ∧ IsFile (G k.components recordName))

theorem replaced_iff {k : Key} : replaced root G k = true ↔
    (recordPath root k).InLimits ∧ IsFile (G k.components recordName) := decide_eq_true_iff

/-- The entry for a change. -/
def planned (root : Path) (G : Contents) : Key × Option Json → Option JournalEntry
  | (k, some _) => some ⟨k, true, replaced root G k⟩
  | (k, none) => if replaced root G k then some ⟨k, false, true⟩ else none

theorem planned_eq_some {x : Key × Option Json} (h : planned root G x = some e) :
    e = ⟨x.1, x.2.isSome, replaced root G x.1⟩ ∧ (e.write = true ∨ e.replaces = true) := by
  obtain ⟨k, _ | j⟩ := x
  · simp only [planned, Option.ite_none_right_eq_some, Option.some.injEq] at h
    obtain ⟨hr, rfl⟩ := h
    exact ⟨by rw [hr]; rfl, .inr rfl⟩
  · simp only [planned, Option.some.injEq] at h
    exact ⟨h.symm, .inl (h ▸ rfl)⟩

theorem mem_planned_iff : e ∈ L.filterMap (planned root G) ↔ (e.write = true ∨ e.replaces = true) ∧
    e.replaces = replaced root G e.key ∧ ∃ v, (e.key, v) ∈ L ∧ e.write = v.isSome := by
  rw [List.mem_filterMap]
  constructor
  · rintro ⟨⟨k, v⟩, hmem, h⟩
    obtain ⟨rfl, hor⟩ := planned_eq_some h
    exact ⟨hor, rfl, v, hmem, rfl⟩
  · rintro ⟨hor, hrep, v, hmem, hw⟩
    refine ⟨(e.key, v), hmem, ?_⟩
    obtain ⟨k, w, r⟩ := e
    cases v with
    | some j => simp_all [planned]
    | none => simp_all [planned]

theorem nodup_planned (hL : (L.map (·.1)).Nodup) :
    ((L.filterMap (planned root G)).map (·.key)).Nodup := by
  refine hL.sublist ?_
  induction L with
  | nil => exact List.Sublist.refl _
  | cons x l ih =>
    have ih := ih (List.nodup_cons.mp hL).2
    rw [List.filterMap_cons]
    cases hp : planned root G x with
    | none => exact ih.cons _
    | some e =>
      rw [List.map_cons, List.map_cons, (planned_eq_some hp).1]
      exact ih.cons_cons _

/-- Staged changes have one key each. -/
theorem nodup_keys (staged : Changes) : (staged.toList.map (·.1)).Nodup := by
  rw [List.nodup_iff_pairwise_ne, List.pairwise_map]
  refine staged.ascending.imp fun {a b} hab heq => ?_
  rw [heq] at hab
  exact absurd hab (by simp)

/-! ## Before the journal -/

/-- Only staging files have been written, and perhaps a journal that is not in its place yet. -/
structure Staging (root : Path) (G : Contents) (L : List (Key × Option Json)) (c : Contents) :
    Prop where
  others : ∀ d n, (d = [] → n ≠ journalStagingName) →
    (n = stagingName → ∀ k j, (k, some j) ∈ L → d ≠ k.components) → c d n = G d n
  sweepable : ∀ d n, isLeftover n = true → IsFile (c d n) → (place root d n).InLimits

theorem AtRest.staging (h : AtRest root G) (L : List (Key × Option Json)) : Staging root G L G :=
  ⟨fun _ _ _ _ => rfl, fun _ _ hn hf => h.sweepable_of_leftover hn hf⟩

theorem Staging.settled (h : Staging root G L c) : Settled root G c := by
  refine ⟨fun d n hn => h.others d n ?_ ?_, h.sweepable⟩
  · rintro - rfl
    exact absurd hn (by decide)
  · rintro rfl
    exact absurd hn (by decide)

theorem Staging.record (h : Staging root G L c) (d : Path) : c d recordName = G d recordName :=
  h.settled.kept d recordName (by decide)

/-- A place that does not count before the journal may be written. -/
theorem Staging.set (h : Staging root G L c) {d : Path} {n : String} {x : Option Entry}
    (hfree : (d = [] ∧ n = journalStagingName) ∨
      (n = stagingName ∧ ∃ k j, (k, some j) ∈ L ∧ d = k.components))
    (hl : IsFile x → (place root d n).InLimits) : Staging root G L (c.set d n x) where
  others d' n' hroot hkeys := by
    rw [Contents.set_of_ne, h.others d' n' hroot hkeys]
    rintro rfl rfl
    rcases hfree with ⟨hd, hn⟩ | ⟨hn, k, j, hmem, hd⟩
    · exact hroot hd hn
    · exact hkeys hn k j hmem hd
  sweepable d' n' hn' hf := by
    by_cases hdn : d = d' ∧ n = n'
    · obtain ⟨rfl, rfl⟩ := hdn
      rw [Contents.set_self] at hf
      exact hl hf
    · rw [Contents.set_of_ne _ _ fun hd hne => hdn ⟨hd, hne⟩] at hf
      exact h.sweepable d' n' hn' hf

theorem leads_writeStaging {k : Key} {j : Json} (hmem : (k, some j) ∈ L) (h : Staging root G L c) :
    Leads root F (Staging root G L) c (writeStaging root k j).run fun r c' => r = .ok () →
      (stagingPath root k).InLimits ∧
        c' = c.set k.components stagingName (some (.file (recordBytes j))) := by
  have hset : ∀ b, (stagingPath root k).InLimits →
      Staging root G L (c.set k.components stagingName (some (.file b))) := fun b hl =>
    h.set (.inr ⟨rfl, k, j, hmem, rfl⟩) fun _ => hl
  unfold writeStaging
  refine leads_bind_task (leads_step (leads_createDirectories h fun r => ?_))
  cases r with
  | error e => exact fun he => nomatch he
  | ok u =>
    refine fun _ => leads_step (leads_write (by decide) h hset (fun hl _ => ⟨hl, rfl⟩) ?_ ?_)
    · exact fun _ _ _ he => nomatch he
    · exact fun _ he => nomatch he

theorem leads_prepareOne {x : Key × Option Json} (hmem : x ∈ L) (h : Staging root G L c) :
    Leads root F (Staging root G L) c (prepareOne root x.1 x.2).run fun r c' =>
      ∀ entry, r = .ok entry → entry = planned root G x ∧
        (∀ j, x.2 = some j → (stagingPath root x.1).InLimits ∧
          c' x.1.components stagingName = some (.file (recordBytes j))) ∧
        ∀ d, d ≠ x.1.components → c' d stagingName = c d stagingName := by
  obtain ⟨k, v⟩ := x
  unfold prepareOne
  refine leads_bind_task (leads_lift (leads_see h fun t _ hc => fun _ => ?_))
  -- Whether a record is replaced is seen in the tree, where the records are still those of `G`.
  have hrep : t.isFile (recordPath root k) = replaced root G k := by
    rw [Bool.eq_iff_iff, replaced_iff, ← h.record, ← hc]
    exact isFile_place_iff (by decide)
  rw [hrep]
  cases v with
  | none =>
    refine leads_pure_task h ?_
    intro entry hentry
    exact ⟨(Except.ok.inj hentry).symm, fun _ hj => (nomatch hj), fun _ _ => rfl⟩
  | some j =>
    refine leads_bind_task ((leads_writeStaging hmem h).imp fun r c' hr => ?_)
    cases r with
    | error e => exact fun entry he => nomatch he
    | ok u =>
      obtain ⟨hl, rfl⟩ := hr rfl
      refine fun hinv => leads_pure_task hinv ?_
      intro entry hentry
      refine ⟨(Except.ok.inj hentry).symm, ?_,
        fun d hd => Contents.set_of_ne _ _ fun h => absurd h.symm hd⟩
      intro j' hj
      obtain rfl := Option.some.inj hj
      exact ⟨hl, Contents.set_self _ _ _ _⟩

/-- Preparing writes the staging files and plans the entries. -/
theorem leads_prepare {l : List (Key × Option Json)} (hl : (l.map (·.1)).Nodup)
    (hsub : ∀ x ∈ l, x ∈ L) (h : Staging root G L c) :
    Leads root F (Staging root G L) c (prepare root l).run fun r c' =>
      ∀ entries, r = .ok entries → entries = l.filterMap (planned root G) ∧
        (∀ k j, (k, some j) ∈ l → (stagingPath root k).InLimits ∧
          c' k.components stagingName = some (.file (recordBytes j))) ∧
        ∀ d, (∀ k v, (k, v) ∈ l → d ≠ k.components) → c' d stagingName = c d stagingName := by
  -- The contents are general. The last conjunct is what keeps the staging file of the first change
  -- while the rest is prepared.
  induction l generalizing c with
  | nil =>
    refine leads_pure_task h ?_
    intro entries hentries
    exact ⟨(Except.ok.inj hentries).symm, fun _ _ h => absurd h List.not_mem_nil, fun _ _ => rfl⟩
  | cons x l ih =>
    obtain ⟨hx, hrest⟩ := List.nodup_cons.mp hl
    obtain ⟨k, v⟩ := x
    unfold prepare
    refine leads_bind_task ((leads_prepareOne (hsub _ List.mem_cons_self) h).imp fun r c₁ hr => ?_)
    cases r with
    | error e => exact fun entries he => nomatch he
    | ok entry =>
      obtain ⟨rfl, hstaged, hframe⟩ := hr entry rfl
      intro hinv
      have ih := ih hrest (fun y hy => hsub y (List.mem_cons_of_mem _ hy)) hinv
      refine leads_bind_task (ih.imp fun r c₂ hr => ?_)
      cases r with
      | error e => exact fun entries he => nomatch he
      | ok entries =>
        obtain ⟨rfl, hstaged', hframe'⟩ := hr entries rfl
        refine fun hinv' => leads_pure_task hinv' ?_
        intro entries hentries
        refine ⟨?_, fun k' j hmem => ?_, fun d hd => ?_⟩
        · rw [← Except.ok.inj hentries, List.filterMap_cons]
          cases planned root G (k, v) <;> rfl
        · rcases List.mem_cons.mp hmem with heq | hmem
          · obtain ⟨rfl, rfl⟩ := Prod.mk.inj heq
            rw [hframe']
            · exact hstaged j rfl
            · intro k'' v' hmem' hcomp
              exact hx (List.mem_map.mpr ⟨_, hmem', (Key.ext hcomp).symm⟩)
          · exact hstaged' k' j hmem
        · rw [hframe' d fun k' v' hmem => hd k' v' (List.mem_cons_of_mem _ hmem),
            hframe d (hd k v List.mem_cons_self)]

/-! ## Dropping the staging files -/

/-- The files that are there afterwards were there before and are not staging files of a change. -/
theorem leads_discardEach {l : List (Key × Option Json)} (hsub : ∀ x ∈ l, x ∈ L)
    (h : Staging root G L c) :
    Leads root False (Staging root G L) c (discardEach root l) fun _ c' =>
      ∀ d n, IsFile (c' d n) → IsFile (c d n) ∧
        ∀ k j, (k, some j) ∈ l → ¬ (d = k.components ∧ n = stagingName) := by
  induction l generalizing c with
  | nil => exact leads_pure h fun d n hf => ⟨hf, fun _ _ hmem => absurd hmem List.not_mem_nil⟩
  | cons x l ih =>
    have hrest := fun y hy => hsub y (List.mem_cons_of_mem _ hy)
    obtain ⟨k, _ | j⟩ := x
    · refine (ih hrest h).imp fun _ c' hc' d n hf => ⟨(hc' d n hf).1, fun k' j' hmem => ?_⟩
      refine (hc' d n hf).2 k' j' ((List.mem_cons.mp hmem).resolve_left ?_)
      exact fun heq => nomatch heq
    · -- Only a change that writes has a staging file to drop.
      have hmem : (k, some j) ∈ L := hsub _ List.mem_cons_self
      have hdrop : Staging root G L (c.drop k.components stagingName) := by
        unfold Contents.drop
        split
        · exact h.set (.inr ⟨rfl, k, j, hmem, rfl⟩) fun hf => absurd hf not_isFile_none
        · exact h
      unfold discardEach
      refine Leads.bind (leads_drop (by decide) (h.sweepable _ _ (by decide)) h hdrop fun _ => ?_)
      refine Leads.bind (leads_prune hdrop fun _ => ?_)
      apply (ih hrest hdrop).imp
      intro _ c' hc' d n hf
      obtain ⟨hf', hl⟩ := hc' d n hf
      have hdn : ¬ (d = k.components ∧ n = stagingName) := by
        rintro ⟨rfl, rfl⟩
        exact Contents.not_isFile_drop _ _ _ hf'
      refine ⟨?_, fun k' j' hmem' => ?_⟩
      · rwa [Contents.drop_of_ne] at hf'
        exact fun hd hn => hdn ⟨hd.symm, hn.symm⟩
      · rcases List.mem_cons.mp hmem' with heq | hmem'
        · rw [(Prod.mk.inj heq).1]
          exact hdn
        · exact hl k' j' hmem'

/-! ## The journal -/

/-- Every record to be written is in its staging file. -/
def Staged (root : Path) (L : List (Key × Option Json)) (c : Contents) : Prop :=
  ∀ k j, (k, some j) ∈ L → (stagingPath root k).InLimits ∧
    c k.components stagingName = some (.file (recordBytes j))

theorem leads_prepare_all (h : Staging root G L G) (hL : (L.map (·.1)).Nodup) :
    Leads root F (Staging root G L) G (prepare root L).run fun r c =>
      Staging root G L c ∧
        ∀ entries, r = .ok entries → entries = L.filterMap (planned root G) ∧ Staged root L c := by
  apply (leads_prepare hL (fun _ h => h) h).withInv fun _ => id
  intro r c hstaging hr
  refine ⟨hstaging, fun entries hentries => ?_⟩
  obtain ⟨hplanned, hstaged, -⟩ := hr entries hentries
  exact ⟨hplanned, hstaged⟩

/-- The files of one key are as they were prepared. -/
structure Ready (G : Contents) (e : JournalEntry) (c : Contents) : Prop where
  record : c e.key.components recordName = G e.key.components recordName
  no_backup : ¬ IsFile (c e.key.components backupName)
  staging : IsFile (c e.key.components stagingName) ↔ e.write = true

theorem recordPath_inLimits {k : Key} (h : (stagingPath root k).InLimits) :
    (recordPath root k).InLimits := Path.InLimits.of_last h (by decide)

theorem backupPath_inLimits {k : Key} (h : (stagingPath root k).InLimits) :
    (backupPath root k).InLimits := Path.InLimits.of_last h (by decide)

theorem Ready.of_planned (hG : AtRest root G) (hL : (L.map (·.1)).Nodup) (h : Staging root G L c)
    (hs : Staged root L c) (he : e ∈ L.filterMap (planned root G)) : Ready G e c := by
  obtain ⟨-, -, v, hmem, hw⟩ := mem_planned_iff.mp he
  refine ⟨h.record _, ?_, ?_⟩
  · rw [h.others _ _ (fun _ => by decide) fun hn => absurd hn (by decide)]
    exact hG.no_backup _
  · rw [hw]
    cases v with
    | some j => simp [(hs _ j hmem).2]
    -- A deletion has staged nothing, and the keys are distinct, so no other change has either.
    | none =>
      rw [h.others _ _ (fun _ => by decide)]
      · simp [hG.no_staging]
      · rintro - k j hmem' hcomp
        have := List.inj_on_of_nodup_map hL hmem hmem' (Key.ext hcomp)
        cases this

theorem Ready.congr {k : Key} (h : Ready G e c) (hsame : SameBut k c c') (hk : e.key ≠ k) :
    Ready G e c' where
  record := by rw [hsame.other hk, h.record]
  no_backup := by rw [hsame.other hk]; exact h.no_backup
  staging := by rw [hsame.other hk]; exact h.staging

/-- What is only prepared can be undone. -/
theorem Ready.undoable (h : Ready G e c) (hs : Staged root L c)
    (he : e ∈ L.filterMap (planned root G)) : Undoable root G e c := by
  obtain ⟨hor, hrep, v, hmem, hw⟩ := mem_planned_iff.mp he
  have hlimit : (recordPath root e.key).InLimits := by
    cases v with
    | some j => exact recordPath_inLimits (hs _ j hmem).1
    | none =>
      have := hor.resolve_left (by simp [hw])
      rw [hrep, replaced_iff] at this
      exact this.1
  refine ⟨hlimit, ?_⟩
  split
  · next hr =>
    rw [hrep, replaced_iff] at hr
    obtain ⟨-, b, hb⟩ := hr
    exact ⟨b, hb, .inl ⟨h.no_backup, h.record.trans hb⟩⟩
  · next hr =>
    rw [hrep, replaced_iff] at hr
    exact ⟨fun hf => hr ⟨hlimit, hf⟩, h.no_backup, .inl h.record⟩

/-- With the journal in its place the commit is under way. -/
theorem Staging.journaled (hG : AtRest root G) (hL : (L.map (·.1)).Nodup) (h : Staging root G L c)
    (hs : Staged root L c) (hl : (journalPath root).InLimits) (hbefore : G [] journalName = none)
    (hj : c [] journalStagingName =
      some (.file (journalBytes (L.filterMap (planned root G))))) :
    Journaled root G (L.filterMap (planned root G))
      (c.move [] journalStagingName journalName) := by
  -- The draft moves, and nothing else does.
  have hmove : ∀ d n, (d = [] → n ≠ journalStagingName ∧ n ≠ journalName) →
      c.move [] journalStagingName journalName d n = c d n := fun d n hdn =>
    Contents.move_of_ne _ fun hd => ⟨(hdn hd.symm).1.symm, (hdn hd.symm).2.symm⟩
  refine ⟨by rw [Contents.move_target, hj], hl, hbefore, nodup_planned hL, ?_, fun e he => ?_, ?_⟩
  · intro d n hroot hkeys
    rw [hmove d n fun hd => (hroot hd).symm]
    refine h.others d n (fun hd => (hroot hd).2) ?_
    rintro rfl k j hmem
    exact hkeys isShelf_staging ⟨k, true, replaced root G k⟩
      (mem_planned_iff.mpr ⟨.inl rfl, rfl, _, hmem, rfl⟩)
  · exact ((Ready.of_planned hG hL h hs he).undoable hs he).congr
      (hmove _ _ fun _ => by decide) (hmove _ _ fun _ => by decide)
  · intro d n hn hf
    by_cases hdn : d = [] ∧ n = journalStagingName
    · obtain ⟨rfl, rfl⟩ := hdn
      rw [Contents.move_source _ (by decide)] at hf
      exact absurd hf not_isFile_none
    · rw [hmove d n] at hf
      · exact h.sweepable d n hn hf
      · refine fun hd => ⟨fun hne => hdn ⟨hd, hne⟩, ?_⟩
        rintro rfl
        exact absurd hn (by decide)

/-- The journal is written and every entry is prepared. -/
structure Armed (root : Path) (G : Contents) (L : List (Key × Option Json)) (c : Contents) :
    Prop where
  journaled : Journaled root G (L.filterMap (planned root G)) c
  staged : Staged root L c
  ready : ∀ e ∈ L.filterMap (planned root G), Ready G e c

/-- Writing the journal leads to a commit under way, or nothing has happened. -/
theorem leads_writeJournal (hG : AtRest root G) (hL : (L.map (·.1)).Nodup) (h : Staging root G L c)
    (hs : Staged root L c) (hentries : entries = L.filterMap (planned root G)) :
    Leads root F (fun c => Staging root G L c ∨ (Journaled root G entries c)) c
      (writeJournal root entries).run fun
        | .ok (), c' => Armed root G L c'
        | .error _, c' => Staging root G L c' := by
  subst hentries
  have hset : ∀ b, (place root [] journalStagingName).InLimits →
      Staging root G L (c.set [] journalStagingName (some (.file b))) := fun b hl =>
    h.set (.inl ⟨rfl, rfl⟩) fun _ => hl
  unfold writeJournal
  rw [journalStagingPath_eq, journalPath_eq]
  refine leads_bind_task (leads_step (leads_write (by decide) (.inl h)
    (fun b hl => .inl (hset b hl)) (fun hl _ => ?_) (fun _ b hl => hset b hl) fun _ => h))
  have hstaging := hset (journalBytes (L.filterMap (planned root G))) hl
  refine leads_step (leads_rename (by decide) (by decide) (by decide) ?_ (.inl hstaging)
    (fun hlj htarget => ?_) fun _ _ => hstaging)
  · rw [Contents.set_self]
    exact isFile_file _
  · rw [Contents.set_of_ne _ _ fun _ => by decide] at htarget
    -- The renaming has succeeded, so neither a file nor a directory stood in its way.
    have hbefore : G [] journalName = none := by
      have hkept : c [] journalName = G [] journalName := h.settled.kept _ _ (by decide)
      exact eq_none_of_not_isFile hG.no_journal (hkept ▸ htarget)
    have hstaged : Staged root L (c.set [] journalStagingName
        (some (.file (journalBytes (L.filterMap (planned root G)))))) := fun k j hmem => by
      rw [Contents.set_of_ne _ _ fun _ => by decide]
      exact hs k j hmem
    have hj := hstaging.journaled hG hL hstaged (journalPath_eq ▸ hlj) hbefore
      (Contents.set_self _ _ _ _)
    refine ⟨.inr hj, hj, fun k j hmem => ?_, fun e he => ?_⟩
    · rw [Contents.move_of_ne _ fun _ => ⟨by decide, by decide⟩]
      exact hstaged k j hmem
    · have hr := Ready.of_planned hG hL hstaging hstaged he
      refine ⟨?_, ?_, ?_⟩ <;> rw [Contents.move_of_ne _ fun _ => ⟨by decide, by decide⟩]
      · exact hr.record
      · exact hr.no_backup
      · exact hr.staging

end AppRegistry.Disk
