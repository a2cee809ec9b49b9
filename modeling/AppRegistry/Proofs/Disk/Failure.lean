import AppRegistry.Proofs.Disk.Commit
import AppRegistry.Proofs.Disk.Records
import AppRegistry.Proofs.Files.Failures

/-!
# Commits that fail

Calls may fail because of what stands in the tree, such as a directory where a file is needed, or by
a fault that strikes them. When the attempt to commit fails for either reason, the commit answers
with the error and the store rests on the contents from before it, as long as no fault strikes the
clean-up.

Main results: `failed_transact_unchanged`, and `reports_attempt`, which says that no failure of a
call goes unnoticed.
-/

namespace AppRegistry.Disk

variable {root : Path} {α β : Type} {t t' : FileTree} {L : List (Key × Option Json)}
  {plan : List (Option Fault)}

/-! ## Every failure is reported -/

/-- An error is given. -/
def Fails (r : Except StorageError α) : Prop := ∃ e, r = .error e

theorem reports_bind_task {x : Task α} {f : α → Task β} (h : x.run.Reports Fails)
    (hf : ∀ a, (f a).run.Reports Fails) : (x >>= f).run.Reports Fails := by
  rw [ExceptT.run_bind]
  refine h.bind (fun r => ?_) fun r t hr => ?_
  · cases r with
    | ok a => exact hf a
    | error e => exact Script.reports_pure _
  · obtain ⟨e, rfl⟩ := hr
    exact Script.ends_pure ⟨e, rfl⟩ t

theorem reports_pure_task (a : α) : (pure a : Task α).run.Reports Fails := trivial

theorem reports_see_task (f : FileTree → α) :
    (liftM (Script.see f) : Task α).run.Reports Fails := fun _ => trivial

theorem reports_step {about : Path} {s : Script (Except FileError Unit)}
    {bad : Except FileError Unit → Prop} (h : s.Reports bad)
    (hbad : ∀ r, bad r → ∃ e, r = .error e) : (step about s).run.Reports Fails := by
  refine h.bind (fun r => ?_) fun r t hr => ?_
  · split <;> exact Script.reports_pure _
  · obtain ⟨e, rfl⟩ := hbad r hr
    exact Script.ends_pure ⟨_, rfl⟩ t

theorem reports_step_make {about : Path} (c : FileCall) :
    (step about (Script.make c)).run.Reports Fails := by
  have hmake : (Script.make c).Reports fun r => ∃ e, r = .error e :=
    Script.reports_make fun _ e _ => ⟨e, rfl⟩
  exact reports_step hmake fun _ => id

theorem reports_step_blocked {about : Path} {s : Script (Except FileError Unit)}
    (h : s.Reports Script.IsBlocked) : (step about s).run.Reports Fails :=
  reports_step h fun _ ⟨e, _, he⟩ => ⟨e, he⟩

theorem reports_prepare (L : List (Key × Option Json)) : (prepare root L).run.Reports Fails := by
  have hone : ∀ k v, (prepareOne root k v).run.Reports Fails := by
    intro k v
    unfold prepareOne
    apply reports_bind_task (reports_see_task _)
    intro b
    split
    · refine reports_bind_task ?_ fun _ => reports_pure_task _
      unfold writeStaging
      exact reports_bind_task (reports_step_blocked (Script.reports_createDirectories _))
        fun _ => reports_step_make _
    · exact reports_pure_task _
  induction L with
  | nil => exact reports_pure_task _
  | cons x l ih =>
    unfold prepare
    exact reports_bind_task (hone _ _) fun _ => reports_bind_task ih fun _ => reports_pure_task _

theorem reports_writeJournal (entries : List JournalEntry) :
    (writeJournal root entries).run.Reports Fails := by
  unfold writeJournal
  exact reports_bind_task (reports_step_make _) fun _ => reports_step_make _

theorem reports_land (entries : List JournalEntry) : (land root entries).run.Reports Fails := by
  have hone : ∀ e, (applyOne root e).run.Reports Fails := by
    intro e
    rw [applyOne_eq]
    unfold moveAside putInPlace
    refine reports_bind_task ?_ fun _ => ?_ <;> split
    · exact reports_step_make _
    · exact reports_pure_task _
    · exact reports_step_make _
    · exact reports_pure_task _
  have heach : (applyEach root entries).run.Reports Fails := by
    induction entries with
    | nil => exact reports_pure_task _
    | cons e l ih =>
      unfold applyEach
      exact reports_bind_task (hone e) fun _ => ih
  unfold land removeJournal
  exact reports_bind_task heach fun _ => reports_step_blocked (Script.reports_removeIfPresent _)

/-- **Every failure of a call that is not forgiven makes the attempt fail.** -/
theorem reports_attempt (L : List (Key × Option Json)) :
    (attempt root L).Reports fun p => ∃ e, p.error? = some e := by
  unfold attempt
  -- A phase that fails ends the attempt, so its failure is that of the attempt.
  refine (reports_prepare L).bind (fun r => ?_) ?_
  · split
    · exact Script.reports_pure _
    · exact Script.reports_pure _
    · refine (reports_writeJournal _).bind (fun r => ?_) ?_
      · split
        · exact Script.reports_pure _
        · refine (reports_land _).bind (fun r => ?_) ?_
          · split <;> exact Script.reports_pure _
          · rintro _ t ⟨e, rfl⟩
            exact Script.ends_pure ⟨e, rfl⟩ t
      · rintro _ t ⟨e, rfl⟩
        exact Script.ends_pure ⟨e, rfl⟩ t
  · rintro _ t ⟨e, rfl⟩
    exact Script.ends_pure ⟨e, rfl⟩ t

/-! ## Nothing has changed -/

variable {staged : Changes} {ε : Type} {d : Disk} {tx : Transaction ε α}

/-- A failed commit leaves the store at rest on the contents from before it. -/
theorem commit_runUnder (hr : t.get? root = some .directory) (hG : AtRest root (contents root t))
    {e : StorageError} (he : ((attempt root staged.toList).runUnder plan t).1.error? = some e)
    (hquiet : ∀ f ∈ ((attempt root staged.toList).runUnder plan t).2.1, f = none) :
    ∃ rest t', (commit root staged).runUnder plan t = (.error e, rest, t') ∧
      Stored root (Rests root (contents root t)) t' := by
  obtain ⟨hr₁, hreached⟩ :=
    ((leads_attempt (F := True) hG (nodup_keys staged)).meets hr).runUnder plan
  -- The attempt is disturbed and the clean-up is not, so they are followed in different ways.
  have hclean := ((leads_cleanUp hG hreached).meets hr₁).run
  obtain ⟨rest, hrun⟩ := Script.runUnder_of_quiet (cleanUp root staged.toList
    ((attempt root staged.toList).runUnder plan t).1) hquiet
    ((attempt root staged.toList).runUnder plan t).2.2
  rw [commit_eq, Script.runUnder_bind, hrun]
  obtain ⟨hr₂, hresolved⟩ := hclean
  cases hp : ((attempt root staged.toList).runUnder plan t).1 with
  | landed entries =>
    rw [hp] at he
    cases he
  | unprepared err =>
    rw [hp] at he hresolved
    obtain rfl := Option.some.inj he
    rw [hp] at hr₂
    exact ⟨rest, _, Prod.ext hresolved.1 rfl, hr₂, hresolved.2⟩
  | unlanded entries err =>
    rw [hp] at he hresolved
    obtain rfl := Option.some.inj he
    rw [hp] at hr₂
    exact ⟨rest, _, Prod.ext hresolved.1 rfl, hr₂, hresolved.2⟩

/-- What was in the way is gone: no file is new, no record file is missing, and nothing stands in
the place of the journal. -/
structure Cleared (root : Path) (t t' : FileTree) : Prop where
  isDirectory : t'.get? root = some .directory
  sameRecords : SameRecords (contents root t') (contents root t)
  no_new : ∀ d n, IsFile (contents root t' d n) → IsFile (contents root t d n)
  no_journal : contents root t' [] journalName = none

theorem openAt_of_cleared {w : WrittenPath} (hl : (journalPath root).InLimits)
    (hrest : AtRest root (contents root t)) (h : Cleared root t t')
    (hw : WrittenPath.find t' w = .ok (root, .directory)) :
    ∃ t₂, (openAt w).run.run t' = (.ok ⟨root, false⟩, t₂) ∧
      ∀ r, recordsIn root t₂ r = recordsIn root t r := by
  have hsettled : Settled root (contents root t') (contents root t') :=
    ⟨fun _ _ _ => rfl, fun d n hn hf => hrest.sweepable_of_leftover hn (h.no_new d n hf)⟩
  obtain ⟨-, hok, hswept⟩ :=
    (meets_openAt hw h.isDirectory hl (.inl ⟨h.no_journal, hsettled⟩)).run
  refine ⟨_, Prod.ext hok rfl, fun r => recordsIn_congr (SameRecords.trans ?_ h.sameRecords) r⟩
  exact sameRecords_of_eq fun d => hswept.1 d _ (by decide)

theorem transact_runUnder {a : α} {o : Overlay} (hpoisoned : d.poisoned = false)
    (hrun : Overlay.run ⟨snapshot d.root t, ∅⟩ tx = (.done a, o)) :
    (d.transact tx).runUnder plan t =
      (match ((commit d.root o.staged).runUnder plan t).1 with
        | .error e => (.failed e, d)
        | .ok () => (.committed a, d), ((commit d.root o.staged).runUnder plan t).2) := by
  unfold transact
  rw [hpoisoned, if_neg (by decide), Script.runUnder_bind]
  simp only [Script.see, Script.runUnder, hrun]
  rw [Script.runUnder_bind]
  cases ((commit d.root o.staged).runUnder plan t).1 <;> rfl

/-- **A failed commit changes nothing that can be seen.** Whatever faults strike the attempt and
whatever is in its way, if the attempt fails and no fault strikes the clean-up, the transaction
fails and leaves the records, no journal, no staged and no replaced files. Opened again once nothing
is in the way any more, the store has the same records. -/
theorem failed_transact_unchanged (tx : Transaction ε α) (plan : List (Option Fault)) {a : α}
    {o : Overlay} (hpoisoned : d.poisoned = false) (hr : t.get? d.root = some .directory)
    (hl : (journalPath d.root).InLimits) (hrest : AtRest d.root (contents d.root t))
    (hrun : Overlay.run ⟨snapshot d.root t, ∅⟩ tx = (.done a, o))
    (hfails : (∃ e, ((attempt d.root o.staged.toList).runUnder plan t).1.error? = some e) ∨
      ∃ x ∈ (attempt d.root o.staged.toList).failures plan t, ¬ Forgiven x.1 x.2.1 x.2.2)
    (hquiet : ∀ f ∈ ((attempt d.root o.staged.toList).runUnder plan t).2.1, f = none) :
    ∃ e rest t', (d.transact tx).runUnder plan t = ((.failed e, d), rest, t') ∧
      (∀ r, recordsIn d.root t' r = recordsIn d.root t r) ∧
      (∀ k, (recordPath d.root k).InLimits → recordAt d.root t' k = recordAt d.root t k) ∧
      ¬ IsFile (t'.get? (journalPath d.root)) ∧
      (∀ k, ¬ IsFile (t'.get? (stagingPath d.root k)) ∧ ¬ IsFile (t'.get? (backupPath d.root k))) ∧
      ∀ t₂ w, Cleared d.root t' t₂ → WrittenPath.find t₂ w = .ok (d.root, .directory) →
        ∃ t₃, (openAt w).run.run t₂ = (.ok ⟨d.root, false⟩, t₃) ∧
          ∀ r, recordsIn d.root t₃ r = recordsIn d.root t r := by
  -- A failure that is not forgiven is one that the attempt reports.
  obtain ⟨e, he⟩ : ∃ e, ((attempt d.root o.staged.toList).runUnder plan t).1.error? = some e :=
    hfails.elim id ((reports_attempt _).ends_bad plan)
  obtain ⟨rest, t', hcommit, hr', hsettled, hrest'⟩ := commit_runUnder hr hrest he hquiet
  have hsame : SameRecords (contents d.root t') (contents d.root t) :=
    sameRecords_of_eq fun p => hsettled.kept p _ (by decide)
  refine ⟨e, rest, t', ?_, recordsIn_congr hsame, fun k hk => ?_, ?_, fun k => ⟨?_, ?_⟩, ?_⟩
  · rw [transact_runUnder hpoisoned hrun, hcommit]
  · exact recordAt_eq_of_kept hr hr' hk hsettled.kept
  · rw [journalPath_eq, ← isFile_contents_iff]
    exact hrest'.no_journal
  · rw [stagingPath_eq, ← isFile_contents_iff]
    exact hrest'.no_staging _
  · rw [backupPath_eq, ← isFile_contents_iff]
    exact hrest'.no_backup _
  · intro t₂ w hcleared hw
    obtain ⟨t₃, hopen, hrecords⟩ := openAt_of_cleared hl hrest' hcleared hw
    exact ⟨t₃, hopen, fun r => (hrecords r).trans (recordsIn_congr hsame r)⟩

/-! ### A directory where a record belongs -/

/-- A store without records, with a directory in the place of the record of the root key. -/
def blockedTree : FileTree := FileTree.empty.place [recordName] .directory

theorem not_isFile_blockedTree (p : Path) (n : String) :
    ¬ IsFile (contents [] blockedTree p n) := by
  rw [isFile_contents_iff, blockedTree, FileTree.get?_place (by decide)]
  split
  · exact not_isFile_directory
  · cases p <;> exact not_isFile_none

/-- A transaction that writes the record of the root key. -/
def writeRoot : Transaction Unit Unit := .write .root (.bool true) (.done ())

theorem writeRoot_blocked : ∃ e rest t',
    ((⟨[], false⟩ : Disk).transact writeRoot).runUnder [] blockedTree =
      ((.failed e, ⟨[], false⟩), rest, t') ∧
    recordsIn [] t' (.all .root) = .ok [] ∧ ¬ IsFile (t'.get? (stagingPath [] .root)) := by
  have hrest : AtRest [] (contents [] blockedTree) := atRest_of_no_file not_isFile_blockedTree
  obtain ⟨e, rest, t', hrun, hrecords, -, -, hfiles, -⟩ :=
    failed_transact_unchanged (d := ⟨[], false⟩) writeRoot [] rfl rfl (by decide) hrest rfl
      (.inl ⟨.io "/.record.json" .isADirectory, by decide⟩) (by decide)
  exact ⟨e, rest, t', hrun, (hrecords _).trans rfl, (hfiles .root).1⟩

end AppRegistry.Disk
