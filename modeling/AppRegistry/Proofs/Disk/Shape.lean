import AppRegistry.Proofs.Disk.Equivalence
import AppRegistry.Proofs.Disk.Pruned

/-!
# The tree of a store

As long as no commit fails, the tree below the root of a store is a picture of its records: it holds
their files, the directories on the way to them, and nothing else.

**Theorem (`represents_of_evolves`).** That is so after every transaction on a store that was opened
at an empty directory.

The invariant is `Image`. It says what stands under the name of a record and that nothing stands
under the other names of files, which is how the contents are followed through a commit. That no
directory is empty is then enough to find a record below each of them (`Image.exists_below`).
-/

namespace AppRegistry.Disk

variable {root p : Path} {t t' : FileTree} {m : OrderedMap Key Json} {k : Key} {v : Json} {d : Disk}

/-- Below the root there are the record files of a map, the directories on the way to them, and
nothing else. -/
structure Represents (root : Path) (m : OrderedMap Key Json) (t : FileTree) : Prop where
  isDirectory : t.get? root = some .directory
  file_iff : ∀ p b, t.get? (root ++ p) = some (.file b) ↔
    ∃ k v, m.get? k = some v ∧ p = k.components ++ [recordName] ∧ b = recordBytes v
  directory_iff : ∀ p, p ≠ [] → (t.get? (root ++ p) = some .directory ↔
    ∃ k v, m.get? k = some v ∧ p <+: k.components)

/-! ## The invariant -/

/-- The files of a store are the records of a map, and no directory is empty. -/
structure Image (root : Path) (m : OrderedMap Key Json) (t : FileTree) : Prop where
  isDirectory : t.get? root = some .directory
  record : ∀ k, contents root t k.components recordName =
    (m.get? k).map fun v => .file (recordBytes v)
  of_key : ∀ d, (∀ k : Key, d ≠ k.components) → contents root t d recordName = none
  nothing_else : ∀ d n, n ≠ recordName → contents root t d n = none
  full : FullBut root [] t
  inLimits : ∀ k v, m.get? k = some v → (recordPath root k).InLimits

namespace Image

theorem tidy (h : Image root m t) : Stored root Tidy t := by
  refine ⟨h.isDirectory, fun d n => ?_, fun d n hn => ?_⟩
  · by_cases hrecord : n = recordName
    · subst hrecord
      by_cases hd : ∃ k : Key, d = k.components
      · obtain ⟨k, rfl⟩ := hd
        rw [h.record]
        cases m.get? k <;> simp
      · rw [h.of_key d fun k hk => hd ⟨k, hk⟩]
        simp
    · rw [h.nothing_else d n hrecord]
      simp
  · refine h.nothing_else d n ?_
    rintro rfl
    exact absurd hn (by decide)

theorem atRest (h : Image root m t) : AtRest root (contents root t) where
  no_staging d := by simp [h.nothing_else d stagingName (by decide)]
  no_backup d := by simp [h.nothing_else d backupName (by decide)]
  no_journal := by simp [h.nothing_else [] journalName (by decide)]
  sweepable d hf := by simp [h.nothing_else d journalStagingName (by decide)] at hf

theorem neat (h : Image root m t) : Neat root [] t where
  tidy := h.tidy
  full := h.full
  no_draft d := by
    rw [← contents_of_hidden (by decide)]
    exact h.nothing_else d _ (by decide)

theorem get?_record (h : Image root m t) (hv : m.get? k = some v) :
    t.get? (recordPath root k) = some (.file (recordBytes v)) := by
  have hrecord := h.record k
  rwa [hv, contents_of_hidden (by decide)] at hrecord

theorem of_record {d : Path} {e : Entry} (h : Image root m t)
    (he : contents root t d recordName = some e) :
    ∃ k v, m.get? k = some v ∧ d = k.components ∧ e = .file (recordBytes v) := by
  by_cases hd : ∃ k : Key, d = k.components
  · obtain ⟨k, rfl⟩ := hd
    rw [h.record] at he
    cases hv : m.get? k with
    | none => simp [hv] at he
    | some v => exact ⟨k, v, hv, rfl, by simpa [hv, eq_comm] using he⟩
  · rw [h.of_key d fun k hk => hd ⟨k, hk⟩] at he
    cases he

/-! ## What stands below the root -/

/-- Below every directory there is a record. -/
theorem exists_below (h : Image root m t) (hp : p ≠ [])
    (hd : t.get? (root ++ p) = some .directory) :
    ∃ k v, m.get? k = some v ∧ p <+: k.components := by
  obtain ⟨N, hN⟩ := t.exists_length_le
  -- The way down from one entry to the next ends, as there is a longest path.
  obtain ⟨i, hi⟩ : ∃ i, N ≤ p.length + i := ⟨N, Nat.le_add_left N _⟩
  induction i generalizing p with
  | zero =>
    obtain ⟨n, hn⟩ := h.full p hp hp hd
    obtain ⟨e, he⟩ := Option.ne_none_iff_exists'.mp hn
    have hlength := hN _ e he
    simp [place] at hlength
    omega
  | succ i ih =>
    obtain ⟨n, hn⟩ := h.full p hp hp hd
    obtain ⟨e, he⟩ := Option.ne_none_iff_exists'.mp hn
    by_cases hrecord : n = recordName
    · subst hrecord
      obtain ⟨k, v, hv, hk, -⟩ := h.of_record ((contents_of_hidden (by decide)).trans he)
      exact ⟨k, v, hv, hk ▸ List.prefix_rfl⟩
    · have hdir : t.get? (root ++ (p ++ [n])) = some .directory := by
        rw [← List.append_assoc]
        exact eq_directory_of_contents (h.nothing_else p n hrecord) hn
      obtain ⟨k, v, hv, hprefix⟩ := ih (p := p ++ [n]) (by simp) hdir (by simp; omega)
      exact ⟨k, v, hv, (List.prefix_append p [n]).trans hprefix⟩

theorem represents (h : Image root m t) : Represents root m t where
  isDirectory := h.isDirectory
  file_iff p b := by
    constructor
    · intro hfile
      rcases List.eq_nil_or_concat' p with rfl | ⟨d, n, rfl⟩
      · rw [List.append_nil, h.isDirectory] at hfile
        cases hfile
      · rw [← List.append_assoc] at hfile
        have hcontents := isFile_contents_iff.mpr ⟨b, hfile⟩
        -- The only files of an image are records.
        by_cases hrecord : n = recordName
        · subst hrecord
          obtain ⟨k, v, hv, rfl, hb⟩ := h.of_record ((contents_of_hidden (by decide)).trans hfile)
          exact ⟨k, v, hv, rfl, Entry.file.inj hb⟩
        · rw [h.nothing_else d n hrecord] at hcontents
          exact absurd hcontents not_isFile_none
    · rintro ⟨k, v, hv, rfl, rfl⟩
      rw [← List.append_assoc]
      exact h.get?_record hv
  directory_iff p hp := by
    constructor
    · exact h.exists_below hp
    · rintro ⟨k, v, hv, rest, hrest⟩
      refine FileTree.get?_of_append (q := rest ++ [recordName]) (e := .file (recordBytes v)) ?_
        (by simp)
      rw [← h.get?_record hv, recordPath, directory, ← hrest]
      simp

/-! ## Committing -/

/-- **A commit changes the records of the tree and nothing else.** -/
theorem commit {staged : Changes} (h : Image root m t)
    (hok : ((Disk.commit root staged).run t).1 = .ok ()) :
    Image root (Changes.applyAll m staged.toList) ((Disk.commit root staged).run t).2 := by
  have hL := nodup_keys staged
  obtain ⟨-, ⟨hr, hsettled, hrest⟩, hlimits⟩ := commit_run h.isDirectory h.atRest hok
  have hneat := h.neat.commit h.atRest hok
  refine ⟨hr, fun k => ?_, fun d hd => ?_, fun d n hn => ?_, hneat.full, fun k v hv => ?_⟩
  · rw [hsettled.kept _ _ (by decide)]
    by_cases hmem : ∃ v, (k, v) ∈ staged.toList
    · obtain ⟨v, hmem⟩ := hmem
      rw [committed_of_mem hL hmem, Changes.get?_applyAll_of_mem m hmem]
      cases v with
      | some j => rfl
      | none =>
        -- A record that is deleted is one that the deletion replaces.
        by_cases hrep : replaced root (contents root t) k = true
        · exact if_pos hrep
        · rw [changed, if_neg hrep, h.record]
          cases hv : m.get? k with
          | none => rfl
          | some v =>
            refine absurd (replaced_iff.mpr ⟨h.inLimits k v hv, ?_⟩) hrep
            rw [h.record, hv]
            exact isFile_file _
    · have hnone : ∀ v, (k, v) ∉ staged.toList := fun v hv => hmem ⟨v, hv⟩
      rw [Changes.get?_applyAll_of_not_mem m hnone, committed_of_not_mem, h.record]
      intro k' v hkv hk
      exact hnone v (Key.ext hk ▸ hkv)
  · rw [hsettled.kept _ _ (by decide), committed_of_not_mem fun k _ _ => hd k, h.of_key d hd]
  · by_cases hleft : isLeftover n = true
    · refine eq_none_of_not_isFile ?_ (hneat.tidy.2.no_directory d n)
      unfold isLeftover at hleft
      simp only [Bool.or_eq_true, beq_iff_eq] at hleft
      rcases hleft with (rfl | rfl) | rfl
      · exact hrest.no_staging d
      · exact hrest.no_backup d
      · rw [contents_of_hidden (by decide), hneat.no_draft d]
        exact not_isFile_none
    · rw [hsettled.kept d n (by simpa using hleft), committed_of_ne hn, h.nothing_else d n hn]
  · by_cases hmem : ∃ v, (k, v) ∈ staged.toList
    · obtain ⟨w, hmem⟩ := hmem
      rw [Changes.get?_applyAll_of_mem m hmem] at hv
      exact recordPath_inLimits (hlimits k v (hv ▸ hmem))
    · rw [Changes.get?_applyAll_of_not_mem m fun v hv => hmem ⟨v, hv⟩] at hv
      exact h.inLimits k v hv

/-! ## Opening -/

theorem leftovers_eq (h : Image root m t) : leftovers root t = [] := by
  refine List.eq_nil_iff_forall_not_mem.mpr fun p hp => ?_
  obtain ⟨d, n, rfl, hn, hf⟩ := mem_leftovers_iff.mp hp
  rw [h.nothing_else d n] at hf
  · exact not_isFile_none hf
  · rintro rfl
    exact absurd hn (by decide)

/-- Without a journal there is nothing to roll back. -/
theorem rollBackUnfinished (h : Image root m t)
    (hrun : (Disk.rollBackUnfinished root).run.run t = (.ok (), t')) : t' = t := by
  unfold Disk.rollBackUnfinished at hrun
  obtain ⟨r, t₁, hread, hrest⟩ := of_run_bind_ok hrun
  obtain ⟨hr, rfl⟩ := Prod.mk.inj hread
  obtain rfl := Except.ok.inj hr
  split at hrest
  · exact (Prod.mk.inj hrest).2.symm
  · cases hrest
  · next b hb =>
    have hjournal := (FileTree.read_eq_ok_iff.mp hb).2
    rw [journalPath_eq, ← contents_of_hidden (by decide), h.nothing_else [] _ (by decide)]
      at hjournal
    cases hjournal

/-- Where there is nothing to recover, opening the store changes nothing. -/
theorem openAt {w : WrittenPath} (h : Image root m t)
    (hw : WrittenPath.find t w = .ok (root, .directory))
    (hopen : (Disk.openAt w).run.run t = (.ok d, t')) : d = ⟨root, false⟩ ∧ t' = t := by
  rw [openAt_run] at hopen
  simp only [Script.run, hw] at hopen
  obtain ⟨u, t₁, hrecover, hpure⟩ := of_run_bind_ok hopen
  obtain ⟨hd, rfl⟩ := Prod.mk.inj hpure
  refine ⟨(Except.ok.inj hd).symm, ?_⟩
  unfold recover at hrecover
  obtain ⟨u', t₂, hback, hsweep⟩ := of_run_bind_ok hrecover
  obtain ⟨l, t₃, hsee, hremove⟩ := of_run_bind_ok hsweep
  obtain ⟨hl, rfl⟩ := Prod.mk.inj hsee
  obtain rfl := Except.ok.inj hl
  obtain rfl := h.rollBackUnfinished hback
  rw [h.leftovers_eq] at hremove
  exact (Prod.mk.inj hremove).2.symm

end Image

theorem image_of_empty (hr : t.get? root = some .directory)
    (hempty : ∀ p, p ≠ [] → t.get? (root ++ p) = none) : Image root ∅ t where
  isDirectory := hr
  record k := by rw [contents_of_empty hempty]; rfl
  of_key d _ := contents_of_empty hempty d _
  nothing_else d n _ := contents_of_empty hempty d n
  full p hp _ hd := by rw [hempty p hp] at hd; cases hd
  inLimits k v hv := by simp at hv

/-! ## Transactions -/

section
variable {ε α : Type}

/-- The records after a transaction that ended in some way. -/
def recordsAfter (d : Disk) (t : FileTree) (m : OrderedMap Key Json) (tx : Transaction ε α) :
    Ending ε α → OrderedMap Key Json
  | .committed _ => Changes.applyAll m (Overlay.run ⟨snapshot d.root t, ∅⟩ tx).2.staged.toList
  | _ => m

/-- A transaction whose commit does not fail keeps the tree the image of the records. -/
theorem Image.transact {tx : Transaction ε α} {ending : Ending ε α} {d' : Disk}
    (h : Image d.root m t) (hrun : (Disk.transact d tx).run t = ((ending, d'), t'))
    (hfail : ∀ e, ending = .failed e → d.poisoned = true) :
    d'.root = d.root ∧ Image d.root (recordsAfter d t m tx ending) t' := by
  obtain ⟨root, poisoned⟩ := d
  cases poisoned with
  | true =>
    cases hrun
    exact ⟨rfl, h⟩
  | false =>
    rw [transact_run] at hrun
    rcases hover : Overlay.run ⟨snapshot root t, ∅⟩ tx with ⟨a | e | _, o⟩ <;>
      simp only [hover] at hrun
    · cases hok : ((Disk.commit root o.staged).run t).1 with
      | error e =>
        rw [hok] at hrun
        cases hrun
        exact absurd (hfail e rfl) (by simp)
      | ok u =>
        rw [hok] at hrun
        cases hrun
        refine ⟨rfl, ?_⟩
        unfold recordsAfter
        rw [hover]
        exact h.commit hok
    · cases hrun
      exact ⟨rfl, h⟩
    · cases hrun
      exact ⟨rfl, h⟩

end

/-- A store, its tree and its records as they can be reached from an empty directory by transactions
whose commits do not fail. A transaction may be refused, panic or find the store poisoned, and the
store may be opened again. -/
inductive Evolves : Disk → FileTree → OrderedMap Key Json → Prop
  | opened {w : WrittenPath} {root : Path} {t t' : FileTree} {d : Disk} :
    WrittenPath.find t w = .ok (root, .directory) →
    (∀ p, p ≠ [] → t.get? (root ++ p) = none) →
    (openAt w).run.run t = (.ok d, t') → Evolves d t' ∅
  | reopened {w : WrittenPath} {d d' : Disk} {t t' : FileTree} {m : OrderedMap Key Json} :
    Evolves d t m → WrittenPath.find t w = .ok (d.root, .directory) →
    (openAt w).run.run t = (.ok d', t') → Evolves d' t' m
  | transact {ε α : Type} {tx : Transaction ε α} {ending : Ending ε α} {d d' : Disk}
    {t t' : FileTree} {m : OrderedMap Key Json} :
    Evolves d t m → (Disk.transact d tx).run t = ((ending, d'), t') →
    (∀ e, ending = .failed e → d.poisoned = true) → Evolves d' t' (recordsAfter d t m tx ending)

theorem image_of_evolves (h : Evolves d t m) : Image d.root m t := by
  induction h with
  | opened hw hempty hopen =>
    have himage := image_of_empty (get?_of_find hw) hempty
    obtain ⟨rfl, rfl⟩ := himage.openAt hw hopen
    exact himage
  | reopened _ hw hopen ih =>
    obtain ⟨rfl, rfl⟩ := ih.openAt hw hopen
    exact ih
  | transact _ hrun hfail ih =>
    obtain ⟨hroot, himage⟩ := ih.transact hrun hfail
    exact hroot ▸ himage

/-- **The tree is the image of the records**, after every transaction on a store that was opened at
an empty directory, as long as no commit fails. No file of a commit and no empty directory is left,
and no directory is missing, whichever keys were written and deleted together. -/
theorem represents_of_evolves (h : Evolves d t m) : Represents d.root m t :=
  (image_of_evolves h).represents

/-! ### Keys that lie in one another -/

/-- A key below `childKey`. -/
def grandchildKey : Key := ⟨["a", "b"], by decide⟩

/-- Writes three records, the keys of which lie in one another. -/
def writeNested : Transaction Unit Unit :=
  .write .root (.bool true) (.write childKey .null (.write grandchildKey .null (.done ())))

/-- Deletes the records above and below the one of `childKey`. -/
def deleteAround : Transaction Unit Unit :=
  .delete .root fun _ => .delete grandchildKey fun _ => .done ()

/-- The tree with the three records. -/
def nestedTree : FileTree := ((transact ⟨["data"], false⟩ writeNested).run storeTree).2

/-- The tree with the record in the middle. -/
def prunedTree : FileTree := ((transact ⟨["data"], false⟩ deleteAround).run nestedTree).2

theorem represents_deleteAround : ∃ t m, Evolves ⟨["data"], false⟩ t m ∧
    m.toList = [(childKey, .null)] ∧ Represents ["data"] m t := by
  have hopened : Evolves ⟨["data"], false⟩ storeTree ∅ :=
    .opened (w := "/data") rfl (fun _ => get?_below_storeTree) rfl
  have hwrite : (transact ⟨["data"], false⟩ writeNested).run storeTree =
      ((.committed (), ⟨["data"], false⟩), nestedTree) := Prod.ext rfl rfl
  have hdelete : (transact ⟨["data"], false⟩ deleteAround).run nestedTree =
      ((.committed (), ⟨["data"], false⟩), prunedTree) := Prod.ext rfl rfl
  have hevolves := (hopened.transact hwrite nofun).transact hdelete nofun
  exact ⟨prunedTree, _, hevolves, rfl, represents_of_evolves hevolves⟩

end AppRegistry.Disk
