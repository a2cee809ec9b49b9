import AppRegistry.Proofs.Disk.Opened

/-!
# Backups that are put back

A journal may lie at the root of a store beside anything at all: a directory may stand where a
record belongs, and a backup may be one that no commit has made. What rolling back does then is a
function of the contents (`rolledBack`), entry by entry.

**Theorem (`backup_after_openAt`).** Opening a store keeps the bytes of every backup that the
journal asks for, unless a directory stands in the place of the record. Then the backup cannot be put
back. The journal is removed all the same, and the backup is removed as a leftover file.

Each entry reads and changes the files of its own key only, so the entries before and after it can
be left out (`rolledBackEach_apply`).
-/

namespace AppRegistry.Disk

variable {root : Path} {F : Prop} {c c' : Contents} {e : JournalEntry} {l : List JournalEntry}

/-! ## The files of one directory -/

/-- Two contents agree on what stands in one directory. -/
def SameAt (d : Path) (c c' : Contents) : Prop := ∀ n, c' d n = c d n

namespace SameAt

variable {d : Path} (h : SameAt d c c') (n m : String)
include h

theorem set (e : Option Entry) : SameAt d (c.set d n e) (c'.set d n e) := by
  intro p
  unfold Contents.set
  split
  · rfl
  · exact h p

theorem move : SameAt d (c.move d n m) (c'.move d n m) := by
  unfold Contents.move
  rw [h n]
  exact (h.set n none).set m _

theorem clear : SameAt d (c.clear d n root) (c'.clear d n root) := by
  unfold Contents.clear Contents.drop
  rw [h n]
  split
  · split
    · exact h.set n none
    · exact h
  · exact h

end SameAt

/-! ## One entry -/

/-- A backup can be reached, and nothing is in its way to the place of the record. -/
def CanReturn (root : Path) (k : Key) (c : Contents) : Prop :=
  (backupPath root k).InLimits ∧ IsFile (c k.components backupName) ∧
    c k.components recordName ≠ some .directory

instance (root : Path) (k : Key) (c : Contents) : Decidable (CanReturn root k c) := by
  unfold CanReturn; infer_instance

theorem CanReturn.congr {k : Key} (h : SameAt k.components c c') :
    CanReturn root k c' ↔ CanReturn root k c := by
  unfold CanReturn
  rw [h, h]

/-- The contents after the changes to the record of an entry are undone. -/
def restored (root : Path) (e : JournalEntry) (c : Contents) : Contents :=
  if e.replaces then
    if CanReturn root e.key c then c.move e.key.components backupName recordName else c
  else if e.write then c.clear e.key.components recordName root
  else c

/-- The contents after an entry is undone. -/
def rolledBack (root : Path) (c : Contents) (e : JournalEntry) : Contents :=
  (restored root e c).clear e.key.components stagingName root

theorem sameBut_clear (k : Key) {n : String} (hn : IsShelf n) :
    SameBut k c (c.clear k.components n root) := fun _ _ hdn =>
  c.clear_of_ne fun hd hne => hdn hd.symm (hne ▸ hn)

theorem sameBut_rolledBack (c : Contents) (e : JournalEntry) :
    SameBut e.key c (rolledBack root c e) := by
  refine SameBut.trans ?_ (sameBut_clear e.key isShelf_staging)
  unfold restored
  split
  · split
    · exact sameBut_move e.key isShelf_backup isShelf_record
    · exact fun _ _ _ => rfl
  · split
    · exact sameBut_clear e.key isShelf_record
    · exact fun _ _ _ => rfl

theorem rolledBack_of_ne_staging {n : String} (hn : n ≠ stagingName) (d : Path) :
    rolledBack root c e d n = restored root e c d n :=
  Contents.clear_of_ne _ fun _ => hn.symm

/-- The record of a replaced key is its backup if that can return. -/
theorem record_rolledBack_of_replaces (hrep : e.replaces = true) :
    rolledBack root c e e.key.components recordName =
      if CanReturn root e.key c then c e.key.components backupName
      else c e.key.components recordName := by
  rw [rolledBack_of_ne_staging (by decide), restored, if_pos hrep]
  split
  · exact Contents.move_target _ _ _ _
  · rfl

/-- A record that an entry made is removed if it can be reached. -/
theorem record_rolledBack_of_new (hrep : e.replaces = false) (hwrite : e.write = true) :
    rolledBack root c e e.key.components recordName =
      c.clear e.key.components recordName root e.key.components recordName := by
  rw [rolledBack_of_ne_staging (by decide), restored, if_neg (by simp [hrep]), if_pos hwrite]

theorem backup_rolledBack_of_replaces (hrep : e.replaces = true) :
    rolledBack root c e e.key.components backupName =
      if CanReturn root e.key c then none else c e.key.components backupName := by
  rw [rolledBack_of_ne_staging (by decide), restored, if_pos hrep]
  split
  · exact Contents.move_source _ (by decide)
  · rfl

theorem leads_restore_eq (root : Path) (e : JournalEntry) (c : Contents) :
    Leads root False (fun _ => True) c (restore root e) fun _ c' => c' = restored root e c := by
  unfold restore restored
  by_cases hrep : e.replaces = true
  · rw [if_pos hrep, if_pos hrep]
    refine Leads.bind (leads_see trivial fun t _ hc _ => ?_)
    have hfile : t.isFile (backupPath root e.key) = true ↔
        (backupPath root e.key).InLimits ∧ IsFile (c e.key.components backupName) :=
      hc ▸ isFile_place_iff (by decide)
    split
    · next hbak =>
      obtain ⟨hl, hf⟩ := hfile.mp hbak
      have hrecord : (recordPath root e.key).InLimits := Path.InLimits.of_last hl (by decide)
      refine leads_discard (leads_rename (by decide) (by decide) (by decide) hf trivial
        (fun _ hfree => ⟨trivial, ?_⟩) fun _ hblocked => ?_)
      · exact (if_pos ⟨hl, hf, hfree⟩).symm
      · exact (if_neg fun hreturn => hreturn.2.2 (hblocked id hl hrecord)).symm
    · next hbak =>
      exact leads_pure trivial (if_neg fun hreturn =>
        hbak (hfile.mpr ⟨hreturn.1, hreturn.2.1⟩)).symm
  · rw [if_neg hrep, if_neg hrep]
    split
    · exact leads_clear (by decide) trivial trivial rfl
    · exact leads_pure trivial rfl

theorem leads_rollBackOne_eq (root : Path) (e : JournalEntry) (c : Contents) :
    Leads root False (fun _ => True) c (rollBackOne root e) fun _ c' =>
      c' = rolledBack root c e := by
  unfold rollBackOne
  refine Leads.bind ((leads_restore_eq root e c).imp fun _ c₁ hc₁ _ => ?_)
  subst hc₁
  exact Leads.bind (leads_clear (by decide) trivial trivial fun _ => leads_prune trivial rfl)

/-! ## All entries -/

/-- Undoing entries one after another undoes each in the contents that the ones before it left. -/
theorem leads_rollBackEach_eq (root : Path) (l : List JournalEntry) (c : Contents) :
    Leads root False (fun _ => True) c (rollBackEach root l) fun _ c' =>
      c' = l.foldl (rolledBack root) c := by
  induction l generalizing c with
  | nil => exact leads_pure trivial rfl
  | cons e l ih =>
    unfold rollBackEach
    refine Leads.bind ((leads_rollBackOne_eq root e c).imp fun _ c₁ hc₁ _ => ?_)
    subst hc₁
    exact ih _

/-- The files of other keys, and those that belong to no key, are left alone. -/
theorem rolledBackEach_frame {d : Path} {n : String}
    (h : IsShelf n → ∀ e ∈ l, d ≠ e.key.components) :
    l.foldl (rolledBack root) c d n = c d n := by
  induction l generalizing c with
  | nil => rfl
  | cons e l ih =>
    rw [List.foldl_cons, ih fun hn e' he' => h hn e' (List.mem_cons_of_mem _ he')]
    exact sameBut_rolledBack c e d n fun hd hn => h hn e List.mem_cons_self hd

/-- What undoing an entry does to the files of its key depends on those files only. -/
theorem sameAt_rolledBack (h : SameAt e.key.components c c') :
    SameAt e.key.components (rolledBack root c e) (rolledBack root c' e) := by
  refine SameAt.clear ?_ _
  unfold restored
  simp only [CanReturn.congr h]
  split
  · split
    · exact h.move _ _
    · exact h
  · split
    · exact h.clear _
    · exact h

/-- The files of a key are changed by its own entry only. -/
theorem rolledBackEach_apply (root : Path) (c : Contents) (hl : (l.map (·.key)).Nodup)
    (he : e ∈ l) : SameAt e.key.components (rolledBack root c e) (l.foldl (rolledBack root) c) := by
  -- The keys differ, so neither the entries before `e` nor those after it touch its files.
  obtain ⟨l₁, l₂, rfl⟩ := List.append_of_mem he
  rw [List.map_append, List.map_cons, List.nodup_append] at hl
  obtain ⟨-, hl₂, hdisjoint⟩ := hl
  have hbefore : ∀ e' ∈ l₁, e.key.components ≠ e'.key.components := fun e' he' hcomp =>
    hdisjoint _ (List.mem_map_of_mem he') _ List.mem_cons_self (Key.ext hcomp.symm)
  have hafter : ∀ e' ∈ l₂, e.key.components ≠ e'.key.components := fun e' he' hcomp =>
    (List.nodup_cons.mp hl₂).1 (List.mem_map.mpr ⟨e', he', Key.ext hcomp.symm⟩)
  have hsame : SameAt e.key.components c (l₁.foldl (rolledBack root) c) := fun n =>
    rolledBackEach_frame fun _ => hbefore
  intro n
  rw [List.foldl_append, List.foldl_cons, rolledBackEach_frame fun _ => hafter]
  exact sameAt_rolledBack hsame n

/-- What stands for the record and the backup of a replaced key once a commit is rolled back. -/
theorem rolledBackEach_of_replaces (root : Path) (c : Contents) (hl : (l.map (·.key)).Nodup)
    (he : e ∈ l) (hrep : e.replaces = true) :
    l.foldl (rolledBack root) c e.key.components recordName =
        (if CanReturn root e.key c then c e.key.components backupName
          else c e.key.components recordName) ∧
      l.foldl (rolledBack root) c e.key.components backupName =
        if CanReturn root e.key c then none else c e.key.components backupName := by
  have happly := rolledBackEach_apply root c hl he
  rw [happly, happly, record_rolledBack_of_replaces hrep, backup_rolledBack_of_replaces hrep]
  exact ⟨rfl, rfl⟩

/-! ## Opening a store -/

variable {entries : List JournalEntry} {bytes b : ByteArray}

/-- Rolling back an unfinished commit undoes its entries and removes the journal. -/
theorem leads_rollBackUnfinished_eq (hl : (journalPath root).InLimits)
    (hjournal : c [] journalName = some (.file bytes)) (hread : readJournal? bytes = some entries) :
    Leads root False (fun _ => True) c (rollBackUnfinished root).run fun r c' =>
      r = .ok () ∧
        c' = (entries.reverse.foldl (rolledBack root) c).set [] journalName none := by
  unfold rollBackUnfinished
  refine leads_bind_task (leads_lift (leads_see trivial fun t _ hc _ => ?_))
  rw [read_journal_of_file hl (by rw [hc, hjournal])]
  simp only [hread]
  refine leads_bind_task (leads_lift ((leads_rollBackEach_eq root _ c).imp fun _ c₁ hc₁ _ => ?_))
  subst hc₁
  have hkept : entries.reverse.foldl (rolledBack root) c [] journalName = some (.file bytes) := by
    rw [rolledBackEach_frame fun hn => absurd hn (by unfold IsShelf; decide), hjournal]
  refine (leads_removeJournal _ ⟨bytes, hkept⟩ trivial trivial).imp ?_
  rintro (err | u) c' hc'
  · exact absurd hl (hc'.2 id)
  · exact ⟨rfl, hc'⟩

/-- Recovery rolls back, forgets the journal and then removes leftover files until one is out of
reach. -/
theorem leads_recover_eq (hl : (journalPath root).InLimits)
    (hjournal : c [] journalName = some (.file bytes)) (hread : readJournal? bytes = some entries) :
    Leads root False (fun _ => True) c (recover root).run fun r c' =>
      Sweeping root ((entries.reverse.foldl (rolledBack root) c).set [] journalName none) c' ∧
        (r = .ok () → ∀ d n, isLeftover n = true → ¬ IsFile (c' d n)) := by
  unfold recover
  refine leads_bind_task ((leads_rollBackUnfinished_eq hl hjournal hread).imp ?_)
  rintro r c₁ ⟨rfl, hc₁⟩ _
  rw [← hc₁]
  refine leads_bind_task (leads_lift (leads_see trivial fun t _ hc _ => ?_))
  exact (leads_sweep hc (.refl _)).mono id (fun _ _ => trivial) fun r c' hr => ⟨hr.1, hr.2.1⟩

/-- A journal that is out of reach is no reason to touch anything. -/
theorem leads_recover_unreachable (hl : ¬ (journalPath root).InLimits)
    (hjournal : IsFile (c [] journalName)) :
    Leads root False (fun _ => True) c (recover root).run fun r c' => r ≠ .ok () ∧ c' = c := by
  unfold recover
  have hrollback : Leads root False (fun _ => True) c (rollBackUnfinished root).run fun r c' =>
      r ≠ .ok () ∧ c' = c := by
    unfold rollBackUnfinished
    refine leads_bind_task (leads_lift (leads_see trivial fun t hr hc _ => ?_))
    split
    · next hread =>
      rw [← hc, (inLimits_of_read_journal hr hread).2] at hjournal
      exact absurd hjournal not_isFile_none
    · exact leads_throw trivial ⟨(nomatch ·), rfl⟩
    · next hread => exact absurd (FileTree.read_eq_ok_iff.mp hread).1 hl
  refine leads_bind_task (hrollback.imp ?_)
  rintro (err | u) c₁ ⟨hne, hc₁⟩
  · exact ⟨(nomatch ·), hc₁⟩
  · exact absurd rfl hne

/-- What recovery does to the record and the backup of a replaced key. -/
theorem leads_recover_backup (hjournal : c [] journalName = some (.file bytes))
    (hread : readJournal? bytes = some entries) (hkeys : (entries.map (·.key)).Nodup)
    (he : e ∈ entries) (hrep : e.replaces = true)
    (hbackup : c e.key.components backupName = some (.file b)) :
    Leads root False (fun _ => True) c (recover root).run fun r c' =>
      (c e.key.components recordName ≠ some .directory →
        c' e.key.components recordName = some (.file b) ∨
          c' e.key.components backupName = some (.file b)) ∧
      (c e.key.components recordName = some .directory →
        c' e.key.components recordName = some .directory ∧
          (r = .ok () → c' [] journalName = none ∧ c' e.key.components backupName = none)) := by
  by_cases hl : (journalPath root).InLimits
  · refine (leads_recover_eq hl hjournal hread).imp fun r c' hc' => ?_
    obtain ⟨hsweep, hgone⟩ := hc'
    have hkeys' : (entries.reverse.map (·.key)).Nodup := by
      rw [List.map_reverse]
      exact List.nodup_reverse.mpr hkeys
    obtain ⟨hrecord, hbackup'⟩ :=
      rolledBackEach_of_replaces root c hkeys' (List.mem_reverse.mpr he) hrep
    have hkept : c' e.key.components recordName =
        entries.reverse.foldl (rolledBack root) c e.key.components recordName := by
      rw [hsweep.kept _ _ (by decide), Contents.set_of_ne _ _ fun _ => by decide]
    rw [hrecord] at hkept
    have hswept := hsweep e.key.components backupName
    rw [Contents.set_of_ne _ _ fun _ => by decide, hbackup', hbackup] at hswept
    constructor
    · intro hfree
      by_cases hlimit : (backupPath root e.key).InLimits
      · left
        rw [hkept, if_pos ⟨hlimit, ⟨b, hbackup⟩, hfree⟩, hbackup]
      · right
        -- A backup that is out of reach stays where it is, as neither step can touch it.
        rw [if_neg fun hreturn => hlimit hreturn.1] at hswept
        exact hswept.resolve_right fun hremoved => hlimit hremoved.2.1
    · -- Nothing can be renamed over a directory, and then the sweep takes the backup.
      intro hblocked
      rw [if_neg fun hreturn => hreturn.2.2 hblocked] at hswept hkept
      refine ⟨hkept.trans hblocked, fun hok => ⟨?_, ?_⟩⟩
      · rw [hsweep.kept _ _ (by decide), Contents.set_self]
      · rcases hswept with heq | ⟨-, -, -, hnone⟩
        · exact absurd ⟨b, heq⟩ (hgone hok _ _ (by decide))
        · exact hnone
  · -- The journal is out of reach, so nothing is touched and the backup stays.
    refine (leads_recover_unreachable hl ⟨bytes, hjournal⟩).imp ?_
    rintro r c' ⟨hne, rfl⟩
    exact ⟨fun _ => .inr hbackup, fun hblocked => ⟨hblocked, fun hok => absurd hok hne⟩⟩

/-- A store is opened only if recovery succeeds. -/
theorem recover_of_openAt {w : WrittenPath} {t : FileTree} {d : Disk}
    (hw : WrittenPath.find t w = .ok (root, .directory))
    (h : ((openAt w).run.run t).1 = .ok d) : ((recover root).run.run t).1 = .ok () := by
  rw [openAt_run] at h
  simp only [Script.run, hw] at h
  rw [ExceptT.run_bind, Script.run_bind] at h
  cases hres : ((recover root).run.run t).1 with
  | ok u => rfl
  | error err =>
    rw [hres] at h
    cases h

/-- **Opening a store keeps a backup that its journal asks for**, as the record or as the backup,
unless a directory stands in the place of the record. Then the store may open, but the backup and
the journal are lost. -/
theorem backup_after_openAt {w : WrittenPath} {t : FileTree}
    (hw : WrittenPath.find t w = .ok (root, .directory))
    (hjournal : t.get? (journalPath root) = some (.file bytes))
    (hread : readJournal? bytes = some entries) (hkeys : (entries.map (·.key)).Nodup)
    (he : e ∈ entries) (hrep : e.replaces = true)
    (hbackup : t.get? (backupPath root e.key) = some (.file b)) :
    (t.get? (recordPath root e.key) ≠ some .directory →
      ((openAt w).run.run t).2.get? (recordPath root e.key) = some (.file b) ∨
        ((openAt w).run.run t).2.get? (backupPath root e.key) = some (.file b)) ∧
    (t.get? (recordPath root e.key) = some .directory →
      ((openAt w).run.run t).2.get? (recordPath root e.key) = some .directory ∧
        ∀ d, ((openAt w).run.run t).1 = .ok d →
          ((openAt w).run.run t).2.get? (journalPath root) = none ∧
            ((openAt w).run.run t).2.get? (backupPath root e.key) = none) := by
  have hplace : ∀ (t : FileTree) d n, isHidden n = true →
      t.get? (place root d n) = contents root t d n := fun _ _ _ hn => (contents_of_hidden hn).symm
  rw [journalPath_eq] at hjournal ⊢
  rw [backupPath_eq, recordPath_eq] at *
  rw [hplace _ _ _ (by decide)] at hjournal hbackup
  simp only [hplace _ _ recordName (by decide), hplace _ _ backupName (by decide),
    hplace _ _ journalName (by decide)]
  obtain ⟨-, hkept, hlost⟩ := ((leads_recover_backup hjournal hread hkeys he hrep hbackup).meets
    (get?_of_find hw)).run
  rw [openAt_run_snd hw]
  refine ⟨hkept, fun hblocked => ⟨(hlost hblocked).1, fun d hd => ?_⟩⟩
  exact (hlost hblocked).2 (recover_of_openAt hw hd)

/-! ### A directory where a record belongs -/

/-- The record of the root key was moved aside by a commit that was cut short. -/
def movedAsideTree : FileTree :=
  (FileTree.empty.place [journalName] (.file (journalBytes [⟨.root, true, true⟩]))).place
    [backupName] (.file (recordBytes (.bool true)))

theorem backup_kept_movedAside :
    ((openAt "/").run.run movedAsideTree).2.get? (recordPath [] .root) =
        some (.file (recordBytes (.bool true))) ∨
      ((openAt "/").run.run movedAsideTree).2.get? (backupPath [] .root) =
        some (.file (recordBytes (.bool true))) :=
  (backup_after_openAt (w := "/") (t := movedAsideTree) rfl rfl (readJournal?_journalBytes _)
    (by decide) List.mem_cons_self rfl rfl).1 (by decide)

/-- Then a directory was made in the place of the record. -/
def obstructedTree : FileTree := movedAsideTree.place [recordName] .directory

/-- The journal can be read and asks for the backup, the store is opened, and the bytes are gone. -/
theorem backup_lost_obstructed :
    WrittenPath.find obstructedTree "/" = .ok ([], .directory) ∧
    (∃ bytes, obstructedTree.get? (journalPath []) = some (.file bytes) ∧
      readJournal? bytes = some [⟨.root, true, true⟩]) ∧
    obstructedTree.get? (backupPath [] .root) = some (.file (recordBytes (.bool true))) ∧
    ∃ t', (openAt "/").run.run obstructedTree = (.ok ⟨[], false⟩, t') ∧
      t'.get? (recordPath [] .root) = some .directory ∧ t'.get? (backupPath [] .root) = none ∧
      t'.get? (journalPath []) = none := by
  refine ⟨rfl, ⟨_, rfl, readJournal?_journalBytes _⟩, rfl,
    ((openAt "/").run.run obstructedTree).2, ?_⟩
  decide +kernel

end AppRegistry.Disk
