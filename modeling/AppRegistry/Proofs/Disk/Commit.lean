import AppRegistry.Proofs.Disk.Land

/-!
# Commits as an attempt and its clean-up

A commit goes forward as far as it gets (`attempt`) and then cleans up after itself (`cleanUp`): it
drops the staging files, undoes the entries, or drops the backups.

Main results: `leads_attempt` says what the attempt leads to, whatever calls fail, and
`leads_cleanUp` that the clean-up brings the store to rest, on the contents from before the commit
or on those with the changes made.
-/

namespace AppRegistry.Disk

variable {root : Path} {F : Prop} {G c c' : Contents} {L : List (Key × Option Json)}
  {entries : List JournalEntry}

/-! ## The two parts -/

/-- How far a commit came. -/
inductive Progress where
  /-- It failed before its journal was in place. -/
  | unprepared (e : StorageError)
  /-- It failed after its journal was in place. -/
  | unlanded (entries : List JournalEntry) (e : StorageError)
  | landed (entries : List JournalEntry)

/-- The error that a commit fails with. -/
def Progress.error? : Progress → Option StorageError
  | .unprepared e | .unlanded _ e => some e
  | .landed _ => none

/-- The phases of a commit in a row, up to the first that fails. -/
def attempt (root : Path) (L : List (Key × Option Json)) : Script Progress :=
  (prepare root L).run >>= fun
    | .error e => pure (.unprepared e)
    | .ok [] => pure (.landed [])
    | .ok (e :: rest) => (writeJournal root (e :: rest)).run >>= fun
      | .error err => pure (.unprepared err)
      | .ok () => (land root (e :: rest)).run >>= fun
        | .error err => pure (.unlanded (e :: rest) err)
        | .ok () => pure (.landed (e :: rest))

/-- What a commit does in the end. -/
def cleanUp (root : Path) (L : List (Key × Option Json)) :
    Progress → Script (Except StorageError Unit)
  | .unprepared e => discardEach root L >>= fun _ => pure (.error e)
  | .unlanded entries e => undo root entries >>= fun _ => pure (.error e)
  | .landed entries => finish root entries >>= fun _ => pure (.ok ())

theorem commit_eq (root : Path) (staged : Changes) :
    commit root staged = attempt root staged.toList >>= cleanUp root staged.toList := by
  unfold commit attempt
  rw [bind_assoc]
  refine congrArg _ (funext fun r => ?_)
  rcases r with e | (_ | ⟨e, rest⟩)
  · rfl
  · rfl
  · rw [bind_assoc]
    refine congrArg ((writeJournal root (e :: rest)).run >>= ·) (funext fun r => ?_)
    rcases r with e | u
    · rfl
    · rw [bind_assoc]
      refine congrArg ((land root (_ :: rest)).run >>= ·) (funext fun r => ?_)
      rcases r with e | u
      · exact (bind_assoc _ _ _).symm
      · rfl

/-! ## The attempt -/

/-- The changes are made, and backups of replaced records are all that the commit has left. -/
structure Effected (root : Path) (G : Contents) (L : List (Key × Option Json))
    (entries : List JournalEntry) (c : Contents) : Prop where
  settled : Settled root (committed root G L) c
  no_staging : ∀ d, ¬ IsFile (c d stagingName)
  backups : ∀ d, IsFile (c d backupName) →
    ∃ e ∈ entries, e.replaces = true ∧ d = e.key.components
  no_journal : ¬ IsFile (c [] journalName)
  inLimits : ∀ k j, (k, some j) ∈ L → (stagingPath root k).InLimits

/-- Where a commit stands after an attempt. -/
def Reached (root : Path) (G : Contents) (L : List (Key × Option Json)) : Progress → Contents → Prop
  | .unprepared _, c => Staging root G L c
  | .unlanded entries _, c => Journaled root G entries c
  | .landed entries, c => Effected root G L entries c

/-- Changes without an entry are no changes. -/
theorem effected_of_no_entry (hG : AtRest root G) (hL : (L.map (·.1)).Nodup)
    (h : Staging root G L c) (hs : Staged root L c) (hnil : L.filterMap (planned root G) = []) :
    Effected root G L [] c := by
  have hcommitted : committed root G L = G := by
    funext d n
    apply committed_of_no_entry hL
    intro _ e he
    rw [hnil] at he
    exact absurd he List.not_mem_nil
  -- A change that writes always has an entry, so there were deletions only.
  have hwrite : ∀ k j, (k, some j) ∉ L := fun k j hmem => by
    have : (⟨k, true, replaced root G k⟩ : JournalEntry) ∈ L.filterMap (planned root G) :=
      mem_planned_iff.mpr ⟨.inl rfl, rfl, _, hmem, rfl⟩
    rw [hnil] at this
    exact absurd this List.not_mem_nil
  have hkept : ∀ d n, (d = [] → n ≠ journalStagingName) → c d n = G d n := fun d n hd =>
    h.others d n hd fun _ k j hmem => absurd hmem (hwrite k j)
  refine ⟨by rw [hcommitted]; exact h.settled, fun d => ?_, fun d hf => ?_, ?_,
    fun k j hmem => (hs k j hmem).1⟩
  · rw [hkept d _ fun _ => by decide]
    exact hG.no_staging d
  · rw [hkept d _ fun _ => by decide] at hf
    exact absurd hf (hG.no_backup d)
  · rw [hkept _ _ fun _ => by decide]
    exact hG.no_journal

theorem Armed.effected {c₁ : Contents} (hG : AtRest root G) (hL : (L.map (·.1)).Nodup)
    (h : Armed root G L c) (hj : Journaled root G (L.filterMap (planned root G)) c₁)
    (ha : ∀ e ∈ L.filterMap (planned root G), Applied e c c₁) :
    Effected root G L (L.filterMap (planned root G)) (c₁.set [] journalName none) := by
  have helsewhere : ∀ d n, IsShelf n → (∀ e ∈ L.filterMap (planned root G),
      d ≠ e.key.components) → c₁ d n = G d n := fun d n hn hd => by
    refine hj.elsewhere d n (fun _ => ?_) fun _ => hd
    constructor <;> rintro rfl <;> revert hn <;> unfold IsShelf <;> decide
  refine ⟨hj.landed hL rfl h.staged ha, fun d => ?_, fun d hf => ?_, ?_,
    fun k j hmem => (h.staged k j hmem).1⟩
  · rw [Contents.set_of_ne _ _ fun _ => by decide]
    -- The files of a key are known from its entry, all others from before the commit.
    by_cases hd : ∃ e ∈ L.filterMap (planned root G), d = e.key.components
    · obtain ⟨e, he, rfl⟩ := hd
      exact (ha e he).no_staging
    · rw [helsewhere d _ isShelf_staging fun e he hde => hd ⟨e, he, hde⟩]
      exact hG.no_staging d
  · rw [Contents.set_of_ne _ _ fun _ => by decide] at hf
    by_cases hd : ∃ e ∈ L.filterMap (planned root G), d = e.key.components
    · obtain ⟨e, he, rfl⟩ := hd
      refine ⟨e, he, ?_, rfl⟩
      by_contra hrep
      exact (ha e he).backup (by simpa using hrep) hf
    · rw [helsewhere d _ isShelf_backup fun e he hde => hd ⟨e, he, hde⟩] at hf
      exact absurd hf (hG.no_backup d)
  · rw [Contents.set_self]
    exact not_isFile_none

/-- **What an attempt to commit leads to**, whichever of its calls fail. -/
theorem leads_attempt (hG : AtRest root G) (hL : (L.map (·.1)).Nodup) :
    Leads root F (fun _ => True) G (attempt root L) (Reached root G L) := by
  have htrue : ∀ {P : Contents → Prop} (c : Contents), P c → True := fun _ _ => trivial
  unfold attempt
  -- The phases in a row: each starts from what the one before it guarantees at its end.
  refine Leads.bind ((leads_prepare_all (hG.staging L) hL).mono id htrue ?_)
  rintro r c₁ ⟨hstaging, hr⟩ _
  rcases r with err | entries
  · exact leads_pure trivial hstaging
  obtain ⟨hplanned, hstaged⟩ := hr entries rfl
  cases entries with
  | nil => exact leads_pure trivial (effected_of_no_entry hG hL hstaging hstaged hplanned.symm)
  | cons e rest =>
    refine Leads.bind ((leads_writeJournal hG hL hstaging hstaged hplanned).mono id htrue ?_)
    intro r c₂ hr _
    rcases r with err | u
    · exact leads_pure trivial hr
    · rw [hplanned]
      refine Leads.bind ((leads_land hL hr).mono id htrue ?_)
      intro r c₃ hland _
      rcases r with err | u
      · exact leads_pure trivial hland.1
      · obtain ⟨c', hj, ha, rfl⟩ := hland
        exact leads_pure trivial (hr.effected hG hL hj ha)

/-! ## The clean-up -/

/-- The store is at rest, and its records are those of `G`. -/
def Rests (root : Path) (G c : Contents) : Prop := Settled root G c ∧ AtRest root c

/-- What a commit answers, and what it leaves. -/
def Resolved (root : Path) (G : Contents) (L : List (Key × Option Json)) :
    Progress → Except StorageError Unit → Contents → Prop
  | .unprepared e, r, c | .unlanded _ e, r, c => r = .error e ∧ Rests root G c
  | .landed _, r, c => r = .ok () ∧ Rests root (committed root G L) c

theorem leads_discardEach_rests (hG : AtRest root G) (h : Staging root G L c) :
    Leads root False (Staging root G L) c (discardEach root L) fun _ => Rests root G := by
  refine (leads_discardEach (fun _ h => h) h).withInv (fun _ => id) fun _ c' hstaging hfiles => ?_
  refine ⟨hstaging.settled, fun d hf => ?_, fun d hf => ?_, fun hf => ?_, fun d hf => ?_⟩
  · obtain ⟨hf, hno⟩ := hfiles _ _ hf
    rw [h.others d _ (fun _ => by decide) fun _ k j hmem hd => hno k j hmem ⟨hd, rfl⟩] at hf
    exact hG.no_staging d hf
  · rw [hstaging.others d _ (fun _ => by decide) fun hn => absurd hn (by decide)] at hf
    exact hG.no_backup d hf
  · rw [hstaging.others _ _ (fun _ => by decide) fun hn => absurd hn (by decide)] at hf
    exact hG.no_journal hf
  · exact hstaging.sweepable d _ (by decide) hf

theorem leads_finish_rests (h : Effected root G L entries c) :
    Leads root False (Settled root (committed root G L)) c (finish root entries) fun _ =>
      Rests root (committed root G L) := by
  refine (leads_finish h.settled).withInv (fun _ => id) fun _ c' hsettled hfiles => ?_
  refine ⟨hsettled, fun d hf => ?_, fun d hf => ?_, fun hf => ?_, fun d hf => ?_⟩
  · exact h.no_staging d (hfiles _ _ hf).1
  · obtain ⟨hf, hno⟩ := hfiles _ _ hf
    obtain ⟨e, he, hrep, rfl⟩ := h.backups d hf
    exact hno e he hrep ⟨rfl, rfl⟩
  · exact h.no_journal (hfiles _ _ hf).1
  · exact hsettled.sweepable d _ (by decide) hf

/-- **The clean-up brings the store to rest** if its own calls do not fail for other reasons than
the tree has. -/
theorem leads_cleanUp (hG : AtRest root G) {p : Progress}
    (h : Reached root G L p c) :
    Leads root False (fun _ => True) c (cleanUp root L p) (Resolved root G L p) := by
  have htrue : ∀ {P : Contents → Prop} (c : Contents), P c → True := fun _ _ => trivial
  cases p with
  | unprepared e =>
    exact Leads.bind ((leads_discardEach_rests hG h).mono id htrue fun _ _ hrests _ =>
      leads_pure trivial ⟨rfl, hrests⟩)
  | unlanded entries e =>
    exact Leads.bind ((leads_undo hG h).mono id htrue fun _ _ hrests _ =>
      leads_pure trivial ⟨rfl, hrests⟩)
  | landed entries =>
    exact Leads.bind ((leads_finish_rests h).mono id htrue fun _ _ hrests _ =>
      leads_pure trivial ⟨rfl, hrests⟩)

/-- A commit that succeeds makes the changes and leaves the store at rest. -/
theorem commit_run {t : FileTree} {staged : Changes}
    (hr : t.get? root = some .directory) (hG : AtRest root (contents root t))
    (hok : ((commit root staged).run t).1 = .ok ()) :
    (∃ entries, ((attempt root staged.toList).run t).1 = .landed entries) ∧
      Stored root (Rests root (committed root (contents root t) staged.toList))
        ((commit root staged).run t).2 ∧
      ∀ k j, (k, some j) ∈ staged.toList → (stagingPath root k).InLimits := by
  obtain ⟨hr₁, hreached⟩ := ((leads_attempt (F := False) hG (nodup_keys staged)).meets hr).run
  have hclean := ((leads_cleanUp hG hreached).meets hr₁).run
  rw [commit_eq, Script.run_bind] at hok ⊢
  cases hp : ((attempt root staged.toList).run t).1 with
  | unprepared e =>
    rw [hp] at hok hclean
    exact nomatch hok.symm.trans hclean.2.1
  | unlanded entries e =>
    rw [hp] at hok hclean
    exact nomatch hok.symm.trans hclean.2.1
  | landed entries =>
    rw [hp] at hclean hreached
    exact ⟨⟨entries, rfl⟩, ⟨hclean.1, hclean.2.2⟩, hreached.inLimits⟩

/-- A commit that fails leaves the store at rest on the contents from before it. -/
theorem commit_run_error {t : FileTree} {staged : Changes} {e : StorageError}
    (hr : t.get? root = some .directory) (hG : AtRest root (contents root t))
    (he : ((commit root staged).run t).1 = .error e) :
    Stored root (Rests root (contents root t)) ((commit root staged).run t).2 := by
  obtain ⟨hr₁, hreached⟩ := ((leads_attempt (F := False) hG (nodup_keys staged)).meets hr).run
  have hclean := ((leads_cleanUp hG hreached).meets hr₁).run
  rw [commit_eq, Script.run_bind] at he ⊢
  cases hp : ((attempt root staged.toList).run t).1 with
  | unprepared e | unlanded entries e =>
    rw [hp] at hclean
    exact ⟨hclean.1, hclean.2.2⟩
  | landed entries =>
    rw [hp] at he hclean
    exact nomatch he.symm.trans hclean.2.1

end AppRegistry.Disk
