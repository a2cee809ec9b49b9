import AppRegistry.Proofs.Disk.Calls
import AppRegistry.Proofs.Disk.Records

/-!
# A commit that is cut short

A process may be killed anywhere in a commit, and the processes that open the store after it may be
killed as well. When the store is opened at last, its records are those from before the commit or
those from after it. The commit point is the removal of the journal by a commit that succeeds
(`Landed`).

Main result: `commit_crash_atomic`. `openAt_of_killed_cleanUp` says the same of a commit that is
killed after faults have struck its attempt.

Up to the commit point the contents from before the commit can be recovered, from then on those that
the commit leads to (`stored_of_killed_commit`). Recovery keeps what can be recovered, however often
it is cut short itself (`stored_of_reopened`).
-/

namespace AppRegistry.Disk

variable {root : Path} {t t' t₁ t₂ : FileTree} {staged : Changes} {cs : List FileCall}
  {entries : List JournalEntry} {α β ε : Type}

/-! ## The commit point -/

/-- The call that lands a commit. -/
def landing (root : Path) : FileCall := .removeFile (journalPath root)

theorem landing_not_mem (h : ∀ c ∈ cs, KeepsFiles c) : landing root ∉ cs := fun hmem => h _ hmem

/-- Whether the process that made a commit had landed it when it was killed. -/
def Landed (root : Path) (staged : Changes) (t : FileTree) (cs : List FileCall) : Prop :=
  ((commit root staged).run t).1 = .ok () ∧ landing root ∈ cs

theorem killed_make_landing (h : (Script.make (landing root)).Killed t cs t') :
    (cs = [] ∧ t' = t) ∨ (cs = [landing root] ∧ t.run (landing root) = .ok t') := by
  unfold Script.make at h
  split at h
  · cases h with
    | before => exact .inl ⟨rfl, rfl⟩
    | made hrun hrest =>
      obtain ⟨rfl, rfl⟩ := Script.killed_pure hrest
      exact .inr ⟨rfl, hrun⟩
    | refused hrun hrest => exact .inl (Script.killed_pure hrest)
  · exact .inl (Script.killed_pure h)

theorem killed_removeJournal (h : (removeJournal root).run.Killed t cs t') :
    (cs = [] ∧ t' = t) ∨ (cs = [landing root] ∧ t.run (landing root) = .ok t') := by
  have hremove := Script.Killed.of_bind_pure h fun r => by
    cases r <;> exact ⟨_, rfl⟩
  rw [removeIfPresent_eq, map_eq_pure_bind] at hremove
  exact killed_make_landing (hremove.of_bind_pure fun r => ⟨_, rfl⟩)

/-! ## Up to the commit point and beyond -/

variable {G : Contents} {L : List (Key × Option Json)}

theorem stored_of_landing (ht : t.get? root = some .directory)
    (h : t.run (landing root) = .ok t') :
    Stored root (· = (contents root t).set [] journalName none) t' := by
  rw [landing, journalPath_eq] at h
  exact stored_of_removeFile (by decide) ht h

/-- A process is killed in a phase that removes no files or after it has failed, or else in what
follows. -/
theorem killed_phase {s : Script (Except ε α)} {f : Except ε α → Script β} {inv : Contents → Prop}
    {post : Except ε α → FileTree → Prop} (hkeeps : s.Only fun c => Own root c ∧ KeepsFiles c)
    (hmeets : s.Meets False (Stored root inv) post t) (hk : (s >>= f).Killed t cs t')
    (herror : ∀ e, ∃ b, f (.error e) = pure b) :
    (landing root ∉ cs ∧ Stored root inv t') ∨ ∃ a rest, (s.run t).1 = .ok a ∧
      cs = s.calls t ++ rest ∧ landing root ∉ s.calls t ∧
      (f (.ok a)).Killed (s.run t).2 rest t' := by
  have hkeeps := hkeeps.mono fun _ h => h.2
  rcases hk.bind_cases with hs | ⟨rest, rfl, hf⟩
  · exact .inl ⟨landing_not_mem (hkeeps.killed hs), hmeets.killed hs⟩
  · cases hres : (s.run t).1 with
    | ok a =>
      rw [hres] at hf
      exact .inr ⟨a, rest, rfl, rfl, landing_not_mem (hkeeps.calls t), hf⟩
    | error e =>
      obtain ⟨b, hb⟩ := herror e
      rw [hres, hb] at hf
      obtain ⟨rfl, rfl⟩ := Script.killed_pure hf
      rw [List.append_nil]
      exact .inl ⟨landing_not_mem (hkeeps.calls t), hmeets.killed (Script.killed_run s t)⟩

/-- A process that lands a commit is killed before the journal is gone or after it. -/
theorem killed_land (hL : (L.map (·.1)).Nodup)
    (h : Stored root (Armed root G L) t)
    (hk : (land root (L.filterMap (planned root G))).run.Killed t cs t') :
    (landing root ∉ cs ∧ Stored root (Journaled root G (L.filterMap (planned root G))) t') ∨
      (landing root ∈ cs ∧ Stored root (Settled root (committed root G L)) t' ∧
        ((land root (L.filterMap (planned root G))).run.run t).1 = .ok ()) := by
  obtain ⟨hr, harmed⟩ := h
  -- Applying the entries removes no file, so the landing call can only be the last one.
  have happly := (leads_applyEach (F := False) (nodup_planned hL) (fun _ h => h) harmed.journaled
    harmed.ready fun e he => (mem_planned_iff.mp he).1).meets hr
  have hend := happly.killed (Script.killed_run _ t)
  have hpost := happly.run
  unfold land at hk ⊢
  rw [ExceptT.run_bind] at hk ⊢
  rcases killed_phase (only_applyEach _) happly hk fun _ => ⟨_, rfl⟩ with
    hbefore | ⟨u, rest, hres, rfl, hcalls, hk⟩
  · exact .inl hbefore
  rw [hres] at hpost
  rw [Script.run_bind, hres]
  rcases killed_removeJournal hk with ⟨rfl, rfl⟩ | ⟨rfl, hrun⟩
  · rw [List.append_nil]
    exact .inl ⟨hcalls, hend⟩
  · refine .inr ⟨by simp, (stored_of_landing hend.1 hrun).imp ?_, ?_⟩
    · rintro c rfl
      exact hend.2.landed hL rfl harmed.staged hpost.2.1
    · have hremove := ((leads_removeJournal (F := False) (fun _ => True)
        ⟨_, hend.2.journal⟩ trivial trivial).meets hend.1).run.2
      cases hlast : ((removeJournal root).run.run ((applyEach root
        (L.filterMap (planned root G))).run.run t).2).1 with
      | ok u => rfl
      | error e =>
        rw [hlast] at hremove
        exact absurd hend.2.inLimits (hremove.2 id)

/-- Landing a commit takes the call that lands it. -/
theorem landing_mem_land (hL : (L.map (·.1)).Nodup) (h : Stored root (Armed root G L) t)
    (hok : ((land root (L.filterMap (planned root G))).run.run t).1 = .ok ()) :
    landing root ∈ (land root (L.filterMap (planned root G))).run.calls t := by
  -- Had the call not been made, the journal would still be there at the end of the run.
  rcases killed_land hL h (Script.killed_run _ t) with ⟨-, hj⟩ | ⟨hmem, -⟩
  · have hland := ((leads_land (F := False) hL h.2).meets h.1).run.2
    rw [hok] at hland
    obtain ⟨c₁, -, -, hc⟩ := hland
    have hjournal := hj.2.journal
    rw [hc, Contents.set_self] at hjournal
    cases hjournal
  · exact hmem

/-- An attempt that lands entries has taken all its phases. -/
theorem of_attempt_landed {e : JournalEntry}
    (h : ((attempt root L).run t).1 = .landed (e :: entries)) :
    ((prepare root L).run.run t).1 = .ok (e :: entries) ∧
      ((writeJournal root (e :: entries)).run.run ((prepare root L).run.run t).2).1 = .ok () ∧
      ((land root (e :: entries)).run.run ((writeJournal root (e :: entries)).run.run
        ((prepare root L).run.run t).2).2).1 = .ok () ∧
      (attempt root L).calls t = ((prepare root L).run.calls t ++
        (writeJournal root (e :: entries)).run.calls ((prepare root L).run.run t).2) ++
        (land root (e :: entries)).run.calls ((writeJournal root (e :: entries)).run.run
          ((prepare root L).run.run t).2).2 := by
  unfold attempt at h ⊢
  rw [Script.run_bind] at h
  rw [Script.calls_bind]
  rcases hprepared : ((prepare root L).run.run t).1 with err | (_ | ⟨e', l⟩) <;>
    rw [hprepared] at h
  · exact nomatch h
  · exact nomatch h
  rw [Script.run_bind] at h
  rw [Script.calls_bind]
  rcases hwritten : ((writeJournal root (e' :: l)).run.run ((prepare root L).run.run t).2).1 with
    err | u <;> rw [hwritten] at h
  · exact nomatch h
  rw [Script.run_bind] at h
  rw [Script.calls_bind]
  rcases hlanded : ((land root (e' :: l)).run.run ((writeJournal root (e' :: l)).run.run
    ((prepare root L).run.run t).2).2).1 with err | u <;> rw [hlanded] at h
  · exact nomatch h
  obtain ⟨rfl, rfl⟩ := List.cons.inj (Progress.landed.inj h)
  exact ⟨rfl, hwritten, hlanded, by simp [Script.calls, pure]⟩

/-- The contents on which a commit ends that has come so far. -/
def Progress.outcome (root : Path) (G : Contents) (L : List (Key × Option Json)) :
    Progress → Contents
  | .unprepared _ | .unlanded _ _ => G
  | .landed _ => committed root G L

theorem recoverable_committed {c : Contents} (hbefore : G [] journalName = none)
    (h : Settled root (committed root G L) c) : Recoverable root (committed root G L) c :=
  .inl ⟨by rw [committed_of_ne (by decide), hbefore], h⟩

/-- Wherever a clean-up is cut short, what the commit ends on can be recovered. -/
theorem stored_of_killed_cleanUp {p : Progress} (hG : AtRest root G)
    (hbefore : G [] journalName = none) (hr : t.get? root = some .directory)
    (hreached : Reached root G L p (contents root t)) (hk : (cleanUp root L p).Killed t cs t') :
    Stored root (Recoverable root (p.outcome root G L)) t' := by
  cases p with
  | unprepared e =>
    have hkept := ((leads_discardEach_rests hG hreached).meets hr).killed
      (hk.of_bind_pure fun _ => ⟨_, rfl⟩)
    exact hkept.imp fun _ h => .inl ⟨hbefore, h.settled⟩
  | unlanded entries e =>
    exact ((leads_undo hG hreached).meets hr).killed (hk.of_bind_pure fun _ => ⟨_, rfl⟩)
  | landed entries =>
    have hkept := ((leads_finish_rests hreached).meets hr).killed
      (hk.of_bind_pure fun _ => ⟨_, rfl⟩)
    exact hkept.imp fun _ => recoverable_committed hbefore

section Attempt
variable (hr : t.get? root = some .directory) (hG : AtRest root (contents root t))
  (hL : (L.map (·.1)).Nodup)
include hr hG hL

theorem landing_mem_attempt {e : JournalEntry}
    (h : ((attempt root L).run t).1 = .landed (e :: entries)) :
    landing root ∈ (attempt root L).calls t := by
  obtain ⟨hprepared, hwritten, hlanded, hcalls⟩ := of_attempt_landed h
  obtain ⟨hr₁, hstaging, hpost⟩ := ((leads_prepare_all (F := False) (hG.staging L) hL).meets hr).run
  obtain ⟨hplanned, hstaged⟩ := hpost _ hprepared
  have hwrite := ((leads_writeJournal (F := False) hG hL hstaging hstaged hplanned).meets hr₁).run
  rw [hwritten] at hwrite
  rw [hcalls]
  rw [hplanned] at hwrite hlanded ⊢
  exact List.mem_append_right _ (landing_mem_land hL hwrite hlanded)

/-- An attempt is cut short before the commit point or after it. -/
theorem killed_attempt (hbefore : contents root t [] journalName = none)
    (hk : (attempt root L).Killed t cs t') :
    (landing root ∉ cs ∧ Stored root (Recoverable root (contents root t)) t') ∨
      (landing root ∈ cs ∧ Stored root (Settled root (committed root (contents root t) L)) t' ∧
        ∃ entries, ((attempt root L).run t).1 = .landed entries) := by
  -- Until the journal is in place, nothing but hidden files has changed.
  have hstaging : ∀ c, Staging root (contents root t) L c → Recoverable root (contents root t) c :=
    fun c h => .inl ⟨hbefore, h.settled⟩
  have hprepare := (leads_prepare_all (F := False) (hG.staging L) hL).meets hr
  obtain ⟨hr₁, hend₁, hpost₁⟩ := hprepare.run
  unfold attempt at hk ⊢
  rcases killed_phase (only_prepare L) hprepare hk fun _ => ⟨_, rfl⟩ with
    ⟨hcs, h⟩ | ⟨entries, rest, hres₁, rfl, hcalls, hk⟩
  · exact .inl ⟨hcs, h.imp hstaging⟩
  obtain ⟨hplanned, hstaged⟩ := hpost₁ entries hres₁
  rw [Script.run_bind, hres₁]
  rcases entries with _ | ⟨e, entries⟩
  · obtain ⟨rfl, rfl⟩ := Script.killed_pure hk
    exact .inl ⟨by rwa [List.append_nil], hr₁, hstaging _ hend₁⟩
  have hwrite := (leads_writeJournal (F := False) hG hL hend₁ hstaged hplanned).meets hr₁
  have hpost₂ := hwrite.run
  rcases killed_phase (only_writeJournal _) hwrite hk fun _ => ⟨_, rfl⟩ with
    ⟨hcs, h⟩ | ⟨u, rest, hres₂, rfl, hcalls', hk⟩
  · refine .inl ⟨by simp [hcalls, hcs], h.imp ?_⟩
    rintro c (h | h)
    · exact hstaging c h
    · exact .inr ⟨_, h⟩
  rw [hres₂] at hpost₂
  rw [Script.run_bind, hres₂]
  have hk := hk.of_bind_pure fun r => by cases r <;> exact ⟨_, rfl⟩
  rw [hplanned] at hk hcalls' hpost₂ ⊢
  -- Only the landing phase can make the call that lands.
  rcases killed_land hL hpost₂ hk with ⟨hcs, h⟩ | ⟨hcs, h, hok⟩
  · exact .inl ⟨by simp [hcalls, hcalls', hcs], h.imp fun _ h => .inr ⟨_, h⟩⟩
  · refine .inr ⟨by simp [hcs], h, L.filterMap (planned root (contents root t)), ?_⟩
    rw [Script.run_bind, hok]
    rfl

/-- A commit that is cut short in its clean-up stays on the side of the commit point where it is. -/
theorem killed_cleanUp (hbefore : contents root t [] journalName = none)
    (hk : (cleanUp root L ((attempt root L).run t).1).Killed ((attempt root L).run t).2 cs t') :
    (∃ e, (((attempt root L >>= cleanUp root L).run t).1 = .error e) ∧
        Stored root (Recoverable root (contents root t)) t') ∨
      (((attempt root L >>= cleanUp root L).run t).1 = .ok () ∧
        ((landing root ∈ (attempt root L).calls t ∧
            Stored root (Recoverable root (committed root (contents root t) L)) t') ∨
          (landing root ∉ (attempt root L).calls t ++ cs ∧
            Stored root (Recoverable root (contents root t)) t'))) := by
  obtain ⟨hr₁, hreached⟩ := ((leads_attempt (F := False) hG hL).meets hr).run
  have hkept := stored_of_killed_cleanUp hG hbefore hr₁ hreached hk
  rw [Script.run_bind]
  cases hp : ((attempt root L).run t).1 with
  | unprepared e =>
    rw [hp] at hkept
    exact .inl ⟨e, by rw [cleanUp, Script.run_bind]; rfl, hkept⟩
  | unlanded entries e =>
    rw [hp] at hkept
    exact .inl ⟨e, by rw [cleanUp, Script.run_bind]; rfl, hkept⟩
  | landed entries =>
    refine .inr ⟨by rw [cleanUp, Script.run_bind]; rfl, ?_⟩
    rcases killed_attempt hr hG hL hbefore (Script.killed_run _ t) with ⟨hcs, h⟩ | ⟨hcs, -⟩
    · cases entries with
      | nil =>
        -- Without entries there was no journal to remove, and nothing has changed.
        rw [hp] at hk
        obtain ⟨rfl, rfl⟩ := Script.killed_pure hk
        exact .inr ⟨by rwa [List.append_nil], h⟩
      | cons e rest => exact absurd (landing_mem_attempt hr hG hL hp) hcs
    · rw [hp] at hkept
      exact .inl ⟨hcs, hkept⟩

end Attempt

/-- What a killed commit leaves: the contents from before can be recovered, or, when the commit has
landed, those that it leads to. -/
theorem stored_of_killed_commit (hr : t.get? root = some .directory)
    (hG : AtRest root (contents root t)) (hbefore : contents root t [] journalName = none)
    (hk : (commit root staged).Killed t cs t') :
    (¬ Landed root staged t cs → Stored root (Recoverable root (contents root t)) t') ∧
      (Landed root staged t cs →
        Stored root (Recoverable root (committed root (contents root t) staged.toList)) t') := by
  have hL := nodup_keys staged
  unfold Landed
  rw [commit_eq] at hk ⊢
  -- The process was killed on its way forward or in the clean-up. In the clean-up the outcome of
  -- the commit is settled, and the landing call was made if it was ever made.
  rcases hk.bind_cases with hforward | ⟨rest, rfl, hend⟩
  · rcases killed_attempt hr hG hL hbefore hforward with ⟨hcs, h⟩ | ⟨hcs, h, entries, hp⟩
    · exact ⟨fun _ => h, fun hlanded => absurd hlanded.2 hcs⟩
    · refine ⟨fun hn => absurd ⟨?_, hcs⟩ hn, fun _ => h.imp fun _ => recoverable_committed hbefore⟩
      rw [Script.run_bind, hp, cleanUp, Script.run_bind]
      rfl
  · rcases killed_cleanUp hr hG hL hbefore hend with ⟨e, herr, h⟩ | ⟨hok, ⟨hcs, h⟩ | ⟨hcs, h⟩⟩
    · exact ⟨fun _ => h, fun hlanded => nomatch herr.symm.trans hlanded.1⟩
    · exact ⟨fun hn => absurd ⟨hok, List.mem_append_left _ hcs⟩ hn, fun _ => h⟩
    · exact ⟨fun _ => h, fun hlanded => absurd hlanded.2 hcs⟩

/-! ## Opening the store again -/

/-- Any number of processes have tried to open the store and were killed. -/
inductive Reopened (root : Path) : FileTree → FileTree → Prop
  | none (t : FileTree) : Reopened root t t
  | more {w : WrittenPath} {t t₁ t₂ : FileTree} {cs : List FileCall} :
      WrittenPath.find t w = .ok (root, .directory) → (openAt w).run.Killed t cs t₁ →
      Reopened root t₁ t₂ → Reopened root t t₂

theorem stored_of_reopened (hl : (journalPath root).InLimits)
    (h : Stored root (Recoverable root G) t) (hre : Reopened root t t') :
    Stored root (Recoverable root G) t' := by
  -- What `Recoverable` says of `G` is the invariant of every opening, also of one that is killed.
  induction hre with
  | none => exact h
  | more hw hk _ ih => exact ih ((meets_openAt hw h.1 hl h.2).killed hk)

/-- The first process that is not killed opens the store and finds the records of `G`. -/
theorem openAt_run_of_recoverable {w : WrittenPath} (hl : (journalPath root).InLimits)
    (h : Stored root (Recoverable root G) t)
    (hw : WrittenPath.find t w = .ok (root, .directory)) :
    ∃ t', (openAt w).run.run t = (.ok ⟨root, false⟩, t') ∧ SameRecords (contents root t') G := by
  obtain ⟨-, hok, hkept, -⟩ := (meets_openAt hw h.1 hl h.2).run
  exact ⟨_, Prod.ext hok rfl, sameRecords_of_eq fun d => hkept d _ (by decide)⟩

/-- **A commit that is cut short is made as a whole or not at all.** A process is killed in a
commit, any number of processes are killed that open the store after it, and the next one is not: it
opens the store and finds the records from before the commit or, when the commit had landed, those
of the whole commit. -/
theorem commit_crash_atomic (h : Opened root t) (hk : (commit root staged).Killed t cs t₁)
    (hre : Reopened root t₁ t₂) : t₂.get? root = some .directory ∧
    ∀ w, WrittenPath.find t₂ w = .ok (root, .directory) → ∃ t₃,
      (openAt w).run.run t₂ = (.ok ⟨root, false⟩, t₃) ∧
      (¬ Landed root staged t cs → ∀ r, recordsIn root t₃ r = recordsIn root t r) ∧
      (Landed root staged t cs →
        ∀ r, recordsIn root t₃ r = recordsIn root ((commit root staged).run t).2 r) ∧
      ∀ m, Holds root (contents root t) m →
        (∀ k v, (k, some v) ∈ staged.toList → ReadsBack v) →
        (¬ Landed root staged t cs → recordsIn root t₃ (.all .root) = .ok m.toList) ∧
        (Landed root staged t cs → recordsIn root t₃ (.all .root) =
          .ok (Changes.applyAll m staged.toList).toList) := by
  obtain ⟨hbefore, hafter⟩ :=
    stored_of_killed_commit h.isDirectory h.atRest h.no_journal hk
  -- Both sides of the commit point: what is recoverable after the kill survives the openings.
  by_cases hlanded : Landed root staged t cs
  · have hstored := stored_of_reopened h.inLimits (hafter hlanded) hre
    refine ⟨hstored.1, fun w hw => ?_⟩
    obtain ⟨t₃, hopen, hsame⟩ := openAt_run_of_recoverable h.inLimits hstored hw
    obtain ⟨-, ⟨-, hrests, -⟩, hlimits⟩ := commit_run h.isDirectory h.atRest hlanded.1
    refine ⟨t₃, hopen, fun hn => absurd hlanded hn, fun _ r => ?_, fun m hm hback => ⟨fun hn =>
      absurd hlanded hn, fun _ => ?_⟩⟩
    · refine recordsIn_congr (hsame.trans (sameRecords_of_eq fun d => ?_)) r
      exact (hrests.kept d _ (by decide)).symm
    · have hm' := hm.committed hback fun k v hkv => recordPath_inLimits (hlimits k v hkv)
      rw [(hm'.congr hsame.symm).recordsIn, Transaction.recordsIn_all]
  · have hstored := stored_of_reopened h.inLimits (hbefore hlanded) hre
    refine ⟨hstored.1, fun w hw => ?_⟩
    obtain ⟨t₃, hopen, hsame⟩ := openAt_run_of_recoverable h.inLimits hstored hw
    refine ⟨t₃, hopen, fun _ r => recordsIn_congr hsame r, fun hl => absurd hl hlanded,
      fun m hm _ => ⟨fun _ => ?_, fun hl => absurd hl hlanded⟩⟩
    rw [(hm.congr hsame.symm).recordsIn, Transaction.recordsIn_all]

/-! ## Faults before the kill -/

/-- A commit leaves a store as it is whenever it has been opened. -/
theorem Opened.commit (h : Opened root t) (hok : ((Disk.commit root staged).run t).1 = .ok ()) :
    Opened root ((Disk.commit root staged).run t).2 := by
  obtain ⟨-, ⟨hr, hsettled, hrests⟩, -⟩ := commit_run h.isDirectory h.atRest hok
  refine ⟨hr, hrests, h.inLimits, ?_⟩
  rw [hsettled.kept _ _ (by decide), committed_of_ne (by decide), h.no_journal]

/-- **Faults in the attempt are no worse than a kill.** Faults strike the attempt to commit, the
process is killed in the clean-up, and any number of processes are killed that open the store after
it. The next one opens the store and finds the records from before the commit or, when the attempt
has succeeded all the same, those of the whole commit. -/
theorem openAt_of_killed_cleanUp {plan : List (Option Fault)} {p : Progress} {w : WrittenPath}
    (h : Opened root t) (hp : ((attempt root staged.toList).runUnder plan t).1 = p)
    (hk : (cleanUp root staged.toList p).Killed
      ((attempt root staged.toList).runUnder plan t).2.2 cs t₁)
    (hre : Reopened root t₁ t₂) (hw : WrittenPath.find t₂ w = .ok (root, .directory)) :
    ∃ t₃, (openAt w).run.run t₂ = (.ok ⟨root, false⟩, t₃) ∧
      (∀ e, p.error? = some e → ∀ r, recordsIn root t₃ r = recordsIn root t r) ∧
      ∀ m, p.error? = none → Holds root (contents root t) m →
        (∀ k v, (k, some v) ∈ staged.toList → ReadsBack v) →
        recordsIn root t₃ (.all .root) = .ok (Changes.applyAll m staged.toList).toList := by
  obtain ⟨hr, hreached⟩ :=
    ((leads_attempt (F := True) h.atRest (nodup_keys staged)).meets h.isDirectory).runUnder plan
  rw [hp] at hreached
  -- The faults are over, so what can be recovered is kept from here to the last opening.
  have hkilled := stored_of_killed_cleanUp h.atRest h.no_journal hr hreached hk
  obtain ⟨t₃, hopen, hsame⟩ :=
    openAt_run_of_recoverable h.inLimits (stored_of_reopened h.inLimits hkilled hre) hw
  refine ⟨t₃, hopen, fun e he r => ?_, fun m hnone hm hback => ?_⟩
  · cases p with
    | unprepared _ | unlanded _ _ => exact recordsIn_congr hsame r
    | landed entries => cases he
  · cases p with
    | unprepared _ | unlanded _ _ => cases hnone
    | landed entries =>
      have hm' := hm.committed hback fun k v hkv =>
        recordPath_inLimits (Effected.inLimits hreached k v hkv)
      rw [(hm'.congr hsame.symm).recordsIn, Transaction.recordsIn_all]

/-! ### A store killed twice -/

theorem opened_empty : Opened [] .empty := by
  refine opened_of_empty (fun p hp => ?_) rfl (by decide)
  cases p with
  | nil => exact absurd rfl hp
  | cons => rfl

/-- A commit of one new record that is killed with its journal in place. -/
def killedCommit : List FileCall × FileTree :=
  (commit [] ((∅ : Changes).insert .root (some (.bool true)))).after 3 .empty

/-- The store after the process that opens it next is killed once it has removed the staging file.
-/
def killedOpening : FileTree := ((openAt "/").run.after 1 killedCommit.2).2

theorem not_landed_killedCommit :
    ¬ Landed [] ((∅ : Changes).insert .root (some (.bool true))) .empty killedCommit.1 := by
  rintro ⟨-, h⟩
  exact landing_not_mem (by decide) h

/-- The change of the record of the root key to `false`. -/
def second : Changes := (∅ : Changes).insert .root (some (.bool false))

/-- The store with the first record. -/
def writtenOnce : FileTree :=
  ((commit [] ((∅ : Changes).insert .root (some (.bool true)))).run .empty).2

/-- A commit that replaces the record and is killed when its journal is gone and the backup is not.
-/
def landedCommit : List FileCall × FileTree := (commit [] second).after 6 writtenOnce

/-- The store after the process that opens it next is killed before it makes a call. -/
def landedOpening : FileTree := ((openAt "/").run.after 0 landedCommit.2).2

theorem opened_writtenOnce : Opened [] writtenOnce :=
  opened_empty.commit (by decide +kernel)

theorem landed_landedCommit : Landed [] second writtenOnce landedCommit.1 :=
  ⟨by decide +kernel, List.mem_of_getElem? (i := 5) rfl⟩

theorem openAt_killedOpening :
    (∃ t, (openAt "/").run.run killedOpening = (.ok ⟨[], false⟩, t) ∧
      recordsIn [] t (.all .root) = .ok []) ∧
    ∃ t, (openAt "/").run.run landedOpening = (.ok ⟨[], false⟩, t) ∧
      recordsIn [] t (.all .root) = .ok [(.root, .bool false)] := by
  constructor
  · obtain ⟨-, hopens⟩ := commit_crash_atomic opened_empty
      (Script.killed_after 3 (commit [] ((∅ : Changes).insert .root (some (.bool true)))) .empty)
      (.more rfl (Script.killed_after 1 (openAt "/").run killedCommit.2) (.none killedOpening))
    obtain ⟨t, hopen, hbefore, -⟩ := hopens "/" rfl
    exact ⟨t, hopen, hbefore not_landed_killedCommit _⟩
  · obtain ⟨-, hopens⟩ := commit_crash_atomic opened_writtenOnce
      (Script.killed_after 6 (commit [] second) writtenOnce)
      (.more rfl (Script.killed_after 0 (openAt "/").run landedCommit.2) (.none landedOpening))
    obtain ⟨t, hopen, -, hafter, -⟩ := hopens "/" rfl
    exact ⟨t, hopen, (hafter landed_landedCommit _).trans (by decide +kernel)⟩

end AppRegistry.Disk
