import AppRegistry.Proofs.Disk.Commit

/-!
# Which calls a store makes

All calls of a store are its own (`Own`): on files with the names it keeps files under, and on the
directories of keys. Up to the commit point no call removes a file (`KeepsFiles`).

Main results: `only_commit` and `only_recover`.
-/

namespace AppRegistry.Disk

variable {root : Path} {t t' : FileTree} {c : FileCall} {α β : Type}

/-- A call on the files of a store or on the directories of its keys. -/
def Own (root : Path) : FileCall → Prop
  | .write p _ | .removeFile p => ∃ d n, isHidden n = true ∧ p = place root d n
  | .rename p q => ∃ d n m, isHidden n = true ∧ isHidden m = true ∧ n ≠ m ∧
      p = place root d n ∧ q = place root d m
  | c => OnDirectories root c

/-- Whether a call leaves every file in the tree. -/
def KeepsFiles : FileCall → Prop
  | .removeFile _ => False
  | _ => True

instance : DecidablePred KeepsFiles
  | .removeFile _ => .isFalse id
  | .createDirectory _ | .write _ _ | .rename _ _ | .removeDirectory _ => .isTrue trivial

/-! ## Steps with an error -/

variable {P : FileCall → Prop}

theorem only_bind_task {x : Task α} {f : α → Task β} (h : x.run.Only P)
    (hf : ∀ a, (f a).run.Only P) : (x >>= f).run.Only P := by
  rw [ExceptT.run_bind]
  apply h.bind
  intro r
  cases r with
  | ok a => exact hf a
  | error e => exact Script.only_pure _

theorem only_pure_task (a : α) : (pure a : Task α).run.Only P := trivial

theorem only_step {about : Path} {s : Script (Except FileError Unit)} (h : s.Only P) :
    (step about s).run.Only P := by
  apply h.bind
  intro r
  split <;> exact Script.only_pure _

theorem only_lift {s : Script α} (h : s.Only P) : (liftM s : Task α).run.Only P :=
  h.bind fun _ => Script.only_pure _

theorem only_discard {s : Script α} (h : s.Only P) : (discard s : Script Unit).Only P :=
  h.bind fun _ => Script.only_pure _

theorem only_removeIfPresent {p : Path} (h : P (.removeFile p)) :
    (Script.removeIfPresent p).Only P := by
  apply (Script.only_make h).bind
  intro r
  split <;> exact Script.only_pure _

/-! ## The calls of an attempt -/

theorem own_of_onDirectories (h : OnDirectories root c) : Own root c ∧ KeepsFiles c := by
  cases c with
  | createDirectory | removeDirectory => exact ⟨h, trivial⟩
  | write | rename | removeFile => exact h.elim

theorem own_write {d : Path} {n : String} {b : ByteArray} (hn : isHidden n = true) :
    Own root (.write (place root d n) b) := ⟨d, n, hn, rfl⟩

theorem own_rename {d : Path} {n m : String} (hn : isHidden n = true) (hm : isHidden m = true)
    (hnm : n ≠ m) : Own root (.rename (place root d n) (place root d m)) ∧
      KeepsFiles (.rename (place root d n) (place root d m)) :=
  ⟨⟨d, n, m, hn, hm, hnm, rfl, rfl⟩, trivial⟩

theorem only_prepareOne (k : Key) (v : Option Json) :
    (prepareOne root k v).run.Only fun c => Own root c ∧ KeepsFiles c := by
  unfold prepareOne
  apply only_bind_task (only_lift (Script.only_see _))
  intro b
  split
  · refine only_bind_task ?_ fun _ => only_pure_task _
    unfold writeStaging
    refine only_bind_task (only_step ?_) fun _ => only_step (Script.only_make ⟨?_, trivial⟩)
    · exact (only_createDirectories _).mono fun c => own_of_onDirectories
    · exact own_write (by decide)
  · exact only_pure_task _

theorem only_prepare (L : List (Key × Option Json)) :
    (prepare root L).run.Only fun c => Own root c ∧ KeepsFiles c := by
  induction L with
  | nil => exact only_pure_task _
  | cons x l ih =>
    unfold prepare
    exact only_bind_task (only_prepareOne _ _) fun _ => only_bind_task ih fun _ => only_pure_task _

theorem only_writeJournal (entries : List JournalEntry) :
    (writeJournal root entries).run.Only fun c => Own root c ∧ KeepsFiles c := by
  unfold writeJournal
  rw [journalPath_eq, journalStagingPath_eq]
  refine only_bind_task (only_step (Script.only_make ⟨own_write ?_, trivial⟩))
    fun _ => only_step (Script.only_make (own_rename ?_ ?_ ?_)) <;> decide

theorem only_applyEach (entries : List JournalEntry) :
    (applyEach root entries).run.Only fun c => Own root c ∧ KeepsFiles c := by
  induction entries with
  | nil => exact only_pure_task _
  | cons e l ih =>
    unfold applyEach
    refine only_bind_task ?_ fun _ => ih
    rw [applyOne_eq]
    unfold moveAside putInPlace
    refine only_bind_task ?_ fun _ => ?_ <;> split
    · exact only_step (Script.only_make (own_rename (by decide) (by decide) (by decide)))
    · exact only_pure_task _
    · exact only_step (Script.only_make (own_rename (by decide) (by decide) (by decide)))
    · exact only_pure_task _

theorem only_removeJournal : (removeJournal root).run.Only (Own root) :=
  only_step (only_removeIfPresent ⟨[], journalName, by decide, journalPath_eq⟩)

theorem only_attempt (L : List (Key × Option Json)) : (attempt root L).Only (Own root) := by
  unfold attempt
  refine ((only_prepare L).mono fun _ h => h.1).bind fun r => ?_
  split
  · exact Script.only_pure _
  · exact Script.only_pure _
  · refine ((only_writeJournal _).mono fun _ h => h.1).bind fun r => ?_
    split
    · exact Script.only_pure _
    · unfold land
      refine (only_bind_task ((only_applyEach _).mono fun _ h => h.1) fun _ =>
        only_removeJournal).bind fun r => ?_
      split <;> exact Script.only_pure _

/-! ## The calls of a clean-up -/

theorem only_prune_own (k : Key) : (prune root k).Only (Own root) :=
  (only_prune k).mono fun _ h => (own_of_onDirectories h).1

theorem only_removeHidden {d : Path} {n : String} (hn : isHidden n = true) :
    (discard (Script.removeIfPresent (place root d n)) : Script Unit).Only (Own root) :=
  only_discard (only_removeIfPresent ⟨d, n, hn, rfl⟩)

theorem only_discardEach (L : List (Key × Option Json)) : (discardEach root L).Only (Own root) := by
  induction L with
  | nil => exact Script.only_pure _
  | cons x l ih =>
    obtain ⟨k, _ | j⟩ := x
    · exact ih
    · exact (only_removeHidden (by decide)).bind fun _ => (only_prune_own k).bind fun _ => ih

theorem only_rollBackEach (l : List JournalEntry) : (rollBackEach root l).Only (Own root) := by
  induction l with
  | nil => exact Script.only_pure _
  | cons e l ih =>
    unfold rollBackEach rollBackOne restore
    refine Script.Only.bind (Script.Only.bind ?_ fun _ =>
      (only_removeHidden (by decide)).bind fun _ => only_prune_own e.key) fun _ => ih
    split
    · apply (Script.only_see _).bind
      intro b
      split
      · exact only_discard (Script.only_make
          (own_rename (by decide) (by decide) (by decide)).1)
      · exact Script.only_pure _
    · split
      · exact only_removeHidden (by decide)
      · exact Script.only_pure _

theorem only_finish (l : List JournalEntry) : (finish root l).Only (Own root) := by
  induction l with
  | nil => exact Script.only_pure _
  | cons e l ih =>
    rw [finish_cons]
    refine Script.Only.bind ?_ fun _ => Script.Only.bind ?_ fun _ => ih
    · split
      · exact only_removeHidden (by decide)
      · exact Script.only_pure _
    · split
      · exact only_prune_own e.key
      · exact Script.only_pure _

theorem only_commit (staged : Changes) : (commit root staged).Only (Own root) := by
  rw [commit_eq]
  apply (only_attempt _).bind
  intro p
  cases p with
  | unprepared e => exact (only_discardEach _).bind fun _ => Script.only_pure _
  | unlanded entries e =>
    exact ((only_rollBackEach _).bind fun _ => only_discard only_removeJournal).bind fun _ =>
      Script.only_pure _
  | landed entries => exact (only_finish _).bind fun _ => Script.only_pure _

/-! ## The calls of an opening -/

theorem only_recover : (recover root).run.Only (Own root) := by
  have heach : ∀ l : List Path, (∀ p ∈ l, ∃ d n, isHidden n = true ∧ p = place root d n) →
      (removeEach l).run.Only (Own root) := by
    intro l hl
    induction l with
    | nil => exact only_pure_task _
    | cons p l ih =>
      unfold removeEach
      exact only_bind_task (only_step (only_removeIfPresent (hl p List.mem_cons_self)))
        fun _ => ih fun q hq => hl q (List.mem_cons_of_mem _ hq)
  unfold recover
  refine only_bind_task ?_ fun _ => ?_
  · unfold rollBackUnfinished
    apply only_bind_task (only_lift (Script.only_see _))
    intro r
    split
    · exact only_pure_task _
    · exact Script.only_pure _
    · split
      · exact Script.only_pure _
      · exact only_bind_task (only_lift (only_rollBackEach _)) fun _ => only_removeJournal
  · rw [ExceptT.run_bind]
    -- What is removed depends on the tree that is seen, so no list is known beforehand.
    intro t
    apply heach (leftovers root t)
    intro p hp
    obtain ⟨d, n, rfl, hn, -⟩ := mem_leftovers_iff.mp hp
    exact ⟨d, n, isHidden_of_isLeftover hn, rfl⟩

end AppRegistry.Disk
