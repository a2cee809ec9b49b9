import AppRegistry.Proofs.Disk.Pruned

/-!
# What opening a store may touch

A journal is read from a file, so it may name any keys in any order and say of them what is not
true, and anything may stand below the root. Still the paths that recovery works on are made from
the root, the components of a key and a few names.

**Theorem (`openAt_confined`).** A journal that cannot be read stops the opening before anything has
changed. Otherwise every step of the opening is `Confined`: files are removed or renamed only under
the names that a store keeps files under, records only for the keys of the journal, and directories
only if they are empty and on the way to such a key.

What the steps do is summed up in `Spares`, which relates the trees before and after.
-/

namespace AppRegistry.Disk

variable {root : Path} {keys : List Key} {t t' t₁ t₂ : FileTree} {c : FileCall}
  {entries : List JournalEntry} {α β : Type}

/-! ## Steps of a task -/

section Tasks
variable {P : FileTree → FileCall → Prop}

theorem steps_bind_task {x : Task α} {f : α → Task β} (h : x.run.Steps P t)
    (hf : ∀ a, (x.run.run t).1 = .ok a → (f a).run.Steps P (x.run.run t).2) :
    (x >>= f).run.Steps P t := by
  rw [ExceptT.run_bind]
  refine h.bind ?_
  cases hr : (x.run.run t).1 with
  | ok a => exact hf a hr
  | error e => exact Script.steps_pure _

theorem steps_lift {s : Script α} (h : s.Steps P t) : (liftM s : Task α).run.Steps P t :=
  h.bind (Script.steps_pure _)

theorem steps_step {about : Path} {s : Script (Except FileError Unit)} (h : s.Steps P t) :
    (step about s).run.Steps P t := by
  refine h.bind ?_
  split <;> exact Script.steps_pure _

theorem steps_discard {s : Script α} (h : s.Steps P t) : (discard s : Script Unit).Steps P t :=
  h.bind (Script.steps_pure _)

theorem steps_removeIfPresent {p : Path}
    (h : p.fits = true → ∀ t', t.run (.removeFile p) = .ok t' → P t (.removeFile p)) :
    (Script.removeIfPresent p).Steps P t := by
  refine (Script.steps_make fun hfits => h (hfits p (by simp [FileCall.paths]))).bind ?_
  split <;> exact Script.steps_pure _

end Tasks

/-! ## Undoing one entry -/

/-- A call that undoing an entry of this key may make in a tree. -/
def Undoes (root : Path) (k : Key) (t : FileTree) : FileCall → Prop
  | .removeFile p => p = recordPath root k ∨ p = stagingPath root k
  | .rename p q => p = backupPath root k ∧ q = recordPath root k ∧ IsFile (t.get? p) ∧
      t.get? q ≠ some .directory
  | .removeDirectory p => (∃ q, q ≠ [] ∧ q <+: k.components ∧ p = root ++ q) ∧ t.isLeaf p = true
  | .createDirectory _ | .write _ _ => False

/-- Undoing an entry makes no call at all where the directory of its key is out of reach. -/
def UndoesWithin (root : Path) (k : Key) (t : FileTree) (c : FileCall) : Prop :=
  Undoes root k t c ∧ (directory root k).fits = true

theorem steps_restore (e : JournalEntry) :
    (restore root e).Steps (UndoesWithin root e.key) t := by
  unfold restore
  split
  · refine (Script.steps_see _).bind ?_
    rw [Script.run_see]
    split
    · next hfile =>
      obtain ⟨hl, b, hb⟩ := FileTree.isFile_iff.mp hfile
      refine steps_discard (Script.steps_make fun _ t' hrun => ?_)
      have hne : backupPath root e.key ≠ recordPath root e.key := fun h =>
        absurd (place_inj.mp h).2 (by decide)
      obtain ⟨-, htarget, -⟩ := FileTree.get?_of_rename hrun hb hne
      exact ⟨⟨rfl, rfl, ⟨b, hb⟩, htarget⟩, Path.fits_of_append hl.1⟩
    · exact Script.steps_pure _
  · split
    · exact steps_discard (steps_removeIfPresent fun hfits _ _ =>
        ⟨.inl rfl, Path.fits_of_append hfits⟩)
    · exact Script.steps_pure _

theorem steps_prune (k : Key) : (prune root k).Steps (UndoesWithin root k) t := by
  unfold prune
  by_cases hfits : (directory root k).fits = true
  · refine (only_pruneEach (P := fun c => ∃ d ∈ keyDirectories root k, c = .removeDirectory d)
      fun d hd => ⟨d, hd, rfl⟩).steps ?_ t
    rintro c t t' ⟨d, hd, rfl⟩ hrun
    exact ⟨⟨mem_keyDirectories_iff.mp hd, (FileTree.get?_of_removeDirectory hrun).2.2.1⟩, hfits⟩
  · -- The walk stops at once.
    rw [keyDirectories_eq]
    rcases List.eq_nil_or_concat' k.components with hk | ⟨p, n, hk⟩
    · rw [hk]
      exact Script.steps_pure _
    · rw [hk, upward_concat, pruneEach, Script.make, if_neg]
      · exact Script.steps_pure _
      · rw [directory, hk, ← List.append_assoc, ← place] at hfits
        simpa [FileCall.paths] using hfits

theorem steps_rollBackOne (e : JournalEntry) :
    (rollBackOne root e).Steps (UndoesWithin root e.key) t := by
  unfold rollBackOne
  refine (steps_restore e).bind (Script.Steps.bind ?_ (steps_prune e.key))
  exact steps_discard (steps_removeIfPresent fun hfits _ _ =>
    ⟨.inr rfl, Path.fits_of_append hfits⟩)

/-! ## Places and calls -/

/-- The keys that the journal at the root names, if it can be read. -/
def journaledKeys (root : Path) (t : FileTree) : List Key :=
  match t.read (journalPath root) with
  | .ok bytes => ((readJournal? bytes).getD []).map (·.key)
  | .error _ => []

/-- A file that recovery may remove when its journal names the keys: one that is left over, the
journal at the root, or the record of one of the keys. -/
def Touchable (keys : List Key) (d : Path) (n : String) : Prop :=
  isLeftover n = true ∨ (n = journalName ∧ d = []) ∨
    (n = recordName ∧ ∃ k ∈ keys, d = k.components)

/-- A directory below the root on the way to one of the keys. -/
def OnTheWay (root : Path) (keys : List Key) (p : Path) : Prop :=
  ∃ k ∈ keys, ∃ q, q ≠ [] ∧ q <+: k.components ∧ p = root ++ q

/-- A call that recovery may make in a tree when its journal names the keys. -/
def Confined (root : Path) (keys : List Key) (t : FileTree) : FileCall → Prop
  | .removeFile p => ∃ d n, p = place root d n ∧ Touchable keys d n
  | .rename p q => ∃ k ∈ keys, p = backupPath root k ∧ q = recordPath root k ∧
      IsFile (t.get? p) ∧ t.get? q ≠ some .directory
  | .removeDirectory p => OnTheWay root keys p ∧ t.isLeaf p = true
  | .createDirectory _ | .write _ _ => False

theorem Touchable.isHidden {d : Path} {n : String} (h : Touchable keys d n) :
    isHidden n = true := by
  rcases h with h | ⟨rfl, -⟩ | ⟨rfl, -⟩
  · exact isHidden_of_isLeftover h
  · decide
  · decide

theorem OnTheWay.ne_place {p d : Path} {n : String} (h : OnTheWay root keys p)
    (hn : Touchable keys d n) : place root d n ≠ p := by
  obtain ⟨k, -, q, -, hq, rfl⟩ := h
  exact place_hidden_ne hn.isHidden ((List.prefix_append_right_inj root).mpr hq)

theorem OnTheWay.not_prefix {p : Path} (h : OnTheWay root keys p) : ¬ p <+: root := by
  obtain ⟨k, -, q, hq, -, rfl⟩ := h
  intro hp
  have hlen := hp.length_le
  have hne : q.length ≠ 0 := by simpa using hq
  rw [List.length_append] at hlen
  omega

theorem Undoes.confined {k : Key} (h : Undoes root k t c) (hk : k ∈ keys) :
    Confined root keys t c := by
  cases c with
  | createDirectory | write => exact h.elim
  | removeFile p =>
    rcases h with rfl | rfl
    · exact ⟨_, _, rfl, .inr (.inr ⟨rfl, k, hk, rfl⟩)⟩
    · exact ⟨_, _, rfl, .inl rfl⟩
  | rename p q => exact ⟨k, hk, h⟩
  | removeDirectory p => exact ⟨⟨k, hk, h.1⟩, h.2⟩

/-! ## The steps of a recovery -/

theorem steps_rollBackEach (l : List JournalEntry) (hl : ∀ e ∈ l, e.key ∈ keys) :
    (rollBackEach root l).Steps (Confined root keys) t := by
  induction l generalizing t with
  | nil => exact Script.steps_pure _
  | cons e l ih =>
    obtain ⟨he, hl⟩ := List.forall_mem_cons.mp hl
    unfold rollBackEach
    exact ((steps_rollBackOne e).mono fun _ _ h => h.1.confined he).bind (ih hl)

theorem steps_rollBackUnfinished :
    (rollBackUnfinished root).run.Steps (Confined root (journaledKeys root t)) t := by
  unfold rollBackUnfinished
  refine steps_bind_task (steps_lift (Script.steps_see _)) fun r hr => ?_
  obtain rfl : t.read (journalPath root) = r := Except.ok.inj hr
  split
  · exact Script.steps_pure _
  · exact Script.steps_pure _
  · next bytes hread =>
    split
    · exact Script.steps_pure _
    · next entries hentries =>
      have hkeys : ∀ e ∈ entries.reverse, e.key ∈ journaledKeys root t := fun e he => by
        simp only [journaledKeys, hread, hentries]
        exact List.mem_map_of_mem (List.mem_reverse.mp he)
      refine steps_bind_task (steps_lift (steps_rollBackEach _ hkeys)) fun _ _ => ?_
      exact steps_step (steps_removeIfPresent fun _ _ _ =>
        ⟨[], journalName, journalPath_eq, .inr (.inl ⟨rfl, rfl⟩)⟩)

theorem steps_removeEach {l : List Path} (hl : ∀ p ∈ l, ∃ d n, p = place root d n ∧
    isLeftover n = true) : (removeEach l).run.Steps (Confined root keys) t := by
  induction l generalizing t with
  | nil => exact Script.steps_pure _
  | cons p l ih =>
    obtain ⟨⟨d, n, hp, hn⟩, hl⟩ := List.forall_mem_cons.mp hl
    unfold removeEach
    exact steps_bind_task (steps_step (steps_removeIfPresent fun _ _ _ => ⟨d, n, hp, .inl hn⟩))
      fun _ _ => ih hl

theorem steps_recover : (recover root).run.Steps (Confined root (journaledKeys root t)) t := by
  unfold recover
  refine steps_bind_task steps_rollBackUnfinished fun _ _ => ?_
  refine steps_bind_task (steps_lift (Script.steps_see _)) fun l hl => steps_removeEach ?_
  obtain rfl : leftovers root _ = l := Except.ok.inj hl
  intro p hp
  obtain ⟨d, n, hp, hn, -⟩ := mem_leftovers_iff.mp hp
  exact ⟨d, n, hp, hn⟩

/-! ## Before and after -/

/-- The second tree is the first, except that files of a store that may be touched are gone or are
others and directories on the way to the keys are gone. -/
def Spares (root : Path) (keys : List Key) (t t' : FileTree) : Prop :=
  ∀ p, t'.get? p ≠ t.get? p →
    (∃ d n, p = place root d n ∧ Touchable keys d n ∧
      t.get? p ≠ some .directory ∧ t'.get? p ≠ some .directory) ∨
    (OnTheWay root keys p ∧ t.get? p = some .directory ∧ t'.get? p = none)

theorem Spares.refl (t : FileTree) : Spares root keys t t := fun _ hp => absurd rfl hp

theorem Spares.trans (h : Spares root keys t t₁) (h' : Spares root keys t₁ t₂) :
    Spares root keys t t₂ := by
  intro p hp
  by_cases h₁ : t₁.get? p = t.get? p
  · rw [← h₁] at hp ⊢
    exact h' p hp
  by_cases h₂ : t₂.get? p = t₁.get? p
  · rw [h₂]
    exact h p h₁
  -- Both halves have changed the entry, and a directory that is gone stays gone.
  rcases h p h₁ with ⟨d, n, rfl, hn, hdir, hdir₁⟩ | ⟨hway, -, hnone⟩
  · rcases h' _ h₂ with ⟨-, -, -, -, -, hdir₂⟩ | ⟨-, hdir₁', -⟩
    · exact .inl ⟨d, n, rfl, hn, hdir, hdir₂⟩
    · exact absurd hdir₁' hdir₁
  · rcases h' p h₂ with ⟨d, n, rfl, hn, -⟩ | ⟨-, hdir₁', -⟩
    · exact absurd rfl (hway.ne_place hn)
    · rw [hnone] at hdir₁'
      cases hdir₁'

/-- What a confined step changes. -/
theorem Confined.spares (hc : Confined root keys t c) (hrun : t.run c = .ok t') :
    Spares root keys t t' := by
  intro r hr
  cases c with
  | createDirectory | write => exact hc.elim
  | removeFile p =>
    obtain ⟨d, n, rfl, hn⟩ := hc
    obtain ⟨-, ⟨b, hb⟩, hget⟩ := FileTree.get?_of_removeFile hrun
    by_cases heq : place root d n = r
    · subst heq
      refine .inl ⟨d, n, rfl, hn, by simp [hb], by simp [hget]⟩
    · exact absurd (by rw [hget, if_neg heq]) hr
  | rename p q =>
    -- A backup goes back to the record: two entries change, and neither was a directory.
    obtain ⟨k, hk, rfl, rfl, ⟨b, hb⟩, htarget⟩ := hc
    rw [backupPath_eq, recordPath_eq] at *
    obtain ⟨-, -, hget⟩ := FileTree.get?_of_rename hrun hb
      (by rw [Ne, place_inj]; exact fun h => absurd h.2 (by decide))
    by_cases hrecord : place root k.components recordName = r
    · subst hrecord
      exact .inl ⟨_, _, rfl, .inr (.inr ⟨rfl, k, hk, rfl⟩), htarget, by simp [hget]⟩
    · by_cases hbackup : place root k.components backupName = r
      · subst hbackup
        exact .inl ⟨_, _, rfl, .inl rfl, by simp [hb], by rw [hget, if_neg hrecord]; simp⟩
      · exact absurd (by rw [hget, if_neg hrecord, if_neg hbackup]) hr
  | removeDirectory p =>
    obtain ⟨hway, -⟩ := hc
    obtain ⟨-, hdir, -, hget⟩ := FileTree.get?_of_removeDirectory hrun
    by_cases heq : p = r
    · subst heq
      exact .inr ⟨hway, hdir, by rw [hget, if_pos rfl]⟩
    · exact absurd (by rw [hget, if_neg heq]) hr

/-- What confined steps change. -/
theorem spares_of_steps {s : Script α} (h : s.Steps (Confined root keys) t) :
    Spares root keys t (s.run t).2 :=
  h.run (fun _ _ _ hc hI hrun => hI.trans (hc.spares hrun)) (.refl t)

theorem Spares.isDirectory (h : Spares root keys t t') (hr : t.get? root = some .directory) :
    t'.get? root = some .directory := by
  by_contra hne
  rcases h root (by rwa [hr]) with ⟨d, n, heq, -⟩ | ⟨hway, -⟩
  · exact place_ne_root d n heq.symm
  · exact hway.not_prefix List.prefix_rfl

/-! ## Journals that cannot be read -/

variable {bytes : ByteArray}

/-- A journal is refused as a whole if one of its keys has a component that no key has. -/
theorem readJournal?_of_invalid {items : List Json} {item : Json} {f : Json.FieldValues}
    {s n : String} (hread : Json.readRecordBytes? bytes = some (.array items))
    (hitem : item ∈ items)
    (hfields : Json.readFields? ["key", "write", "replaces"] item = some f)
    (hkey : f.value? "key" = some (.string s)) (hn : n ∈ Key.parts s)
    (hinvalid : ¬ Component.IsValid n) : readJournal? bytes = none := by
  have hdecode : (decode? (.string s) : Option Key) = none := by
    show (Key.parse s).toOption = none
    cases hparse : Key.parse s with
    | error e => rfl
    | ok k =>
      rw [← Key.ofComponents_eq_ok_iff.mp hparse] at hn
      exact absurd (k.valid n hn) hinvalid
  have hentry : (decode? item : Option JournalEntry) = none := by
    show (do
      let f ← Json.readFields? ["key", "write", "replaces"] item
      pure (JournalEntry.mk (← f.required "key") (← f.required "write")
        (← f.required "replaces"))) = none
    simp [hfields, Json.FieldValues.required, hkey, hdecode]
  unfold readJournal?
  rw [hread]
  show items.mapM decode? = none
  -- One entry that cannot be decoded is enough for `mapM` to give nothing.
  obtain ⟨l₁, l₂, rfl⟩ := List.append_of_mem hitem
  simp [hentry]

theorem run_bind_see (f : FileTree → α) (g : α → Task β) (t : FileTree) :
    ((liftM (Script.see f) : Task α) >>= g).run.run t = (g (f t)).run.run t := by
  rw [ExceptT.run_bind, Script.run_bind]
  rfl

theorem recover_run_of_unreadable (hread : t.read (journalPath root) = .ok bytes)
    (hjournal : readJournal? bytes = none) :
    (recover root).run.run t = (.error (.journal (Path.text (journalPath root))), t) := by
  have hrollBack : (rollBackUnfinished root).run.run t =
      (.error (.journal (Path.text (journalPath root))), t) := by
    unfold rollBackUnfinished
    rw [run_bind_see, hread]
    simp only [hjournal]
    rfl
  unfold recover
  rw [ExceptT.run_bind, Script.run_bind, hrollBack]
  rfl

/-! ## Opening a store -/

variable {w : WrittenPath}

theorem steps_openAt (hw : WrittenPath.find t w = .ok (root, .directory)) :
    (openAt w).run.Steps (Confined root (journaledKeys root t)) t := by
  rw [openAt_run]
  simp only [Script.Steps, Script.steps, hw]
  exact steps_bind_task steps_recover fun _ _ => Script.steps_pure _

/-- **Opening a store is confined.** If its journal cannot be read, it fails and nothing changes.
Otherwise, whether it succeeds or fails, it touches only files of the store and empty directories on
the way to the keys of the journal, and the root stays. -/
theorem openAt_confined (hw : WrittenPath.find t w = .ok (root, .directory)) :
    (∀ bytes, t.read (journalPath root) = .ok bytes → readJournal? bytes = none →
      (openAt w).run.run t = (.error (.journal (Path.text (journalPath root))), t)) ∧
    (openAt w).run.Steps (Confined root (journaledKeys root t)) t ∧
    Spares root (journaledKeys root t) t ((openAt w).run.run t).2 ∧
    ((openAt w).run.run t).2.get? root = some .directory := by
  have hspares := spares_of_steps (steps_openAt hw)
  refine ⟨fun bytes hread hjournal => ?_, steps_openAt hw, hspares,
    hspares.isDirectory (get?_of_find hw)⟩
  unfold openAt
  rw [run_bind_see, hw]
  show (recover root >>= fun _ => pure ⟨root, false⟩ : Task Disk).run.run t = _
  rw [ExceptT.run_bind, Script.run_bind, recover_run_of_unreadable hread hjournal]
  rfl

/-! ### Journals that no commit has written -/

/-- The bytes of a journal that names the directory above the store. -/
def strayBytes : ByteArray :=
  (Json.array [.object [("key", .string ".."), ("write", .bool true),
    ("replaces", .bool false)]]).compact.toUTF8

/-- A store with that journal and a record. -/
def strayTree : FileTree :=
  ((FileTree.empty.place ["data"] .directory).place ["data", journalName] (.file strayBytes)).place
    ["data", recordName] (.file (recordBytes .null))

/-- A key in the directory of another. -/
def innerKey : Key := ⟨["a", "inner"], by decide⟩

/-- A store whose journal names a key twice, once as new and once as replaced, and the root key,
beside which a file of someone else stands. -/
def crowdedTree : FileTree :=
  [(["data"], .directory), (["data", "a"], .directory), (["data", "a", "inner"], .directory),
    (["data", journalName], .file (journalBytes
      [⟨innerKey, true, true⟩, ⟨innerKey, true, false⟩, ⟨.root, false, true⟩])),
    (["data", "notes"], .file (recordBytes .null)),
    (["data", "a", "inner", recordName], .file (recordBytes .null)),
    (["data", "a", journalStagingName], .file ⟨#[]⟩)].foldl (fun t x => t.place x.1 x.2) .empty

theorem readJournal?_strayBytes : readJournal? strayBytes = none :=
  readJournal?_of_invalid (s := "..") (n := "..")
    (Json.readRecordBytes?_compact ⟨⟨trivial, trivial, trivial, trivial⟩, trivial⟩)
    (List.mem_singleton.mpr rfl) rfl rfl (by decide) (by decide)

theorem journaledKeys_crowdedTree :
    journaledKeys ["data"] crowdedTree = [innerKey, innerKey, .root] := by
  have hread : crowdedTree.read (journalPath ["data"]) = .ok (journalBytes
      [⟨innerKey, true, true⟩, ⟨innerKey, true, false⟩, ⟨.root, false, true⟩]) := rfl
  rw [journaledKeys, hread]
  simp only [readJournal?_journalBytes]
  rfl

/-- The stray journal stops the opening. The other one removes the record and both directories of
the key, as far as they are empty, and the draft of a journal that lies in one of them. -/
theorem openAt_confined_crowdedTree :
    (openAt "/data").run.run strayTree = (.error (.journal "/data/.journal.json"), strayTree) ∧
    (openAt "/data").run.Steps (Confined ["data"] [innerKey, innerKey, .root]) crowdedTree ∧
    Spares ["data"] [innerKey, innerKey, .root] crowdedTree
      ((openAt "/data").run.run crowdedTree).2 ∧
    ((openAt "/data").run.run crowdedTree).2.entries.toList.map (·.1) =
      [["data"], ["data", "a"], ["data", "notes"]] := by
  have hstrayAt : WrittenPath.find strayTree "/data" = .ok (["data"], .directory) := rfl
  have hcrowdedAt : WrittenPath.find crowdedTree "/data" = .ok (["data"], .directory) := rfl
  have hread : strayTree.read (journalPath ["data"]) = .ok strayBytes :=
    FileTree.read_eq_ok_iff.mpr ⟨by decide, rfl⟩
  have hremains : ((openAt "/data").run.run crowdedTree).2.entries.toList.map (·.1) =
      [["data"], ["data", "a"], ["data", "notes"]] := by decide +kernel
  obtain ⟨hstray, -⟩ := openAt_confined hstrayAt
  obtain ⟨-, hsteps, hspares, -⟩ := openAt_confined hcrowdedAt
  rw [journaledKeys_crowdedTree] at hsteps hspares
  exact ⟨hstray _ hread readJournal?_strayBytes, hsteps, hspares, hremains⟩

end AppRegistry.Disk
