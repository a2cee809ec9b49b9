import AppRegistry.Proofs.Disk.Tidy
import AppRegistry.Proofs.Files.Directories

/-!
# Commits that succeed

A commit fails only if something is in its way. In a tidy store nothing is, as long as the paths of
its files are within the limits.

Main result: `commit_isOk`. The phases from the journal on are known to succeed by what stands in
the contents. Before it directories have to be made, so the tree itself is followed.
-/

namespace AppRegistry.Disk

variable {root : Path} {t t' : FileTree} {α β : Type} {staged : Changes}

/-! ## Steps one after another -/

theorem run_bind_of_ok {x : Task α} {f : α → Task β} {a : α} (h : x.run.run t = (.ok a, t')) :
    (x >>= f).run.run t = (f a).run.run t' := by
  rw [ExceptT.run_bind, Script.run_bind, h]

theorem run_step_of_ok {about : Path} {s : Script (Except FileError Unit)}
    (h : s.run t = (.ok (), t')) : (step about s).run.run t = (.ok (), t') := by
  show (s >>= _).run t = _
  rw [Script.run_bind, h]
  rfl

theorem run_make_of_ok {c : FileCall} (hfits : ∀ p ∈ c.paths, p.fits = true)
    (h : t.run c = .ok t') : (Script.make c).run t = (.ok (), t') := by
  rw [Script.make_of_fits hfits, Script.run_attempt, h]

/-- A task that succeeds has succeeded in both its parts. -/
theorem of_run_bind_ok {x : Task α} {f : α → Task β} {b : β}
    (h : (x >>= f).run.run t = (.ok b, t')) : ∃ a t₁, x.run.run t = (.ok a, t₁) ∧
      (f a).run.run t₁ = (.ok b, t') := by
  rw [ExceptT.run_bind, Script.run_bind] at h
  rcases hx : x.run.run t with ⟨err | a, t₁⟩ <;> rw [hx] at h
  · cases h
  · exact ⟨a, t₁, rfl, h⟩

theorem of_run_step_ok {about : Path} {s : Script (Except FileError Unit)}
    (h : (step about s).run.run t = (.ok (), t')) : s.run t = (.ok (), t') := by
  change (s >>= _).run t = _ at h
  rw [Script.run_bind] at h
  rcases hs : s.run t with ⟨err | u, t₁⟩ <;> rw [hs] at h
  · cases h
  · exact Prod.ext rfl (Prod.mk.inj h).2

/-- A call changes the tree, or it fails and leaves it alone. -/
theorem run_make (c : FileCall) (t : FileTree) :
    (∃ t', (Script.make c).run t = (.ok (), t') ∧ (∀ p ∈ c.paths, p.fits = true) ∧
      t.run c = .ok t') ∨
    ∃ e, (Script.make c).run t = (.error e, t) ∧
      ((∀ p ∈ c.paths, p.fits = true) → t.run c = .error e) := by
  by_cases hfits : ∀ p ∈ c.paths, p.fits = true
  · rw [Script.make_of_fits hfits, Script.run_attempt]
    cases hrun : t.run c with
    | ok t' => exact .inl ⟨t', rfl, hfits, rfl⟩
    | error e => exact .inr ⟨e, rfl, fun _ => rfl⟩
  · refine .inr ⟨.nameTooLong, ?_, fun h => absurd h hfits⟩
    unfold Script.make
    rw [if_neg fun hall => hfits (List.all_eq_true.mp hall)]
    rfl

theorem of_run_make_ok {c : FileCall} (h : (Script.make c).run t = (.ok (), t')) :
    (∀ p ∈ c.paths, p.fits = true) ∧ t.run c = .ok t' := by
  rcases run_make c t with ⟨t₁, hrun, hfits, hcall⟩ | ⟨e, hrun, -⟩ <;> rw [hrun] at h
  · exact ⟨hfits, (Prod.mk.inj h).2 ▸ hcall⟩
  · cases h

/-! ## Preparing -/

/-- No file is on the way to the directory of a key. -/
theorem Tidy.free (h : Stored root Tidy t) {k : Key} {q : Path} (hq : q <+: directory root k)
    (b : ByteArray) : t.get? q ≠ some (.file b) := by
  rcases prefix_directory hq with hroot | ⟨d, n, hn, rfl⟩
  · exact FileTree.not_file_of_prefix h.1 hroot b
  · intro hfile
    have hcontents : contents root t d n = some (.file b) :=
      (contents_of_plain (by simp [hn])).mpr ⟨b, rfl, hfile⟩
    rw [h.2.no_plain d n hn] at hcontents
    cases hcontents

theorem Tidy.not_directory (h : Stored root Tidy t) {d : Path} {n : String}
    (hn : isHidden n = true) : t.get? (place root d n) ≠ some .directory := by
  rw [← contents_of_hidden hn]
  exact h.2.no_directory _ _

theorem writeStaging_run (h : Stored root Tidy t) {k : Key} (j : Json)
    (hl : (stagingPath root k).InLimits) :
    ∃ t', (writeStaging root k j).run.run t = (.ok (), t') ∧ Stored root Tidy t' := by
  obtain ⟨t₁, hrun, hget⟩ := Script.createDirectories_run (Path.InLimits.of_append hl)
    fun q hq => Tidy.free h hq
  have hdir : t₁.get? (directory root k) = some .directory := by
    rw [hget, if_pos List.prefix_rfl]
  have htidy₁ : Stored root Tidy t₁ := by
    have := stored_tidy_run
      ((only_createDirectories k).mono fun _ h => (own_of_onDirectories h).1) h
    rwa [hrun] at this
  have hfree : t₁.get? (stagingPath root k) ≠ some .directory := by
    rw [stagingPath_eq]
    exact Tidy.not_directory htidy₁ (by decide)
  obtain ⟨t₂, hwrite⟩ := FileTree.write_isOk hl.2 hfree (by rwa [stagingPath, List.dropLast_concat])
    (recordBytes j)
  refine ⟨t₂, ?_, stored_tidy_call (own_write (by decide)) htidy₁ hwrite⟩
  unfold writeStaging
  rw [run_bind_of_ok (run_step_of_ok hrun)]
  exact run_step_of_ok (run_make_of_ok (by simpa [FileCall.paths] using hl.1) hwrite)

theorem prepareOne_run (h : Stored root Tidy t) {k : Key} (v : Option Json)
    (hl : (stagingPath root k).InLimits) : ∃ entry t',
      (prepareOne root k v).run.run t = (.ok entry, t') ∧ Stored root Tidy t' := by
  unfold prepareOne
  cases v with
  | none => exact ⟨_, t, rfl, h⟩
  | some j =>
    obtain ⟨t', hrun, htidy⟩ := writeStaging_run h j hl
    refine ⟨some ⟨k, true, t.isFile (recordPath root k)⟩, t', ?_, htidy⟩
    show (writeStaging root k j >>= _ : Task _).run.run t = _
    rw [run_bind_of_ok hrun]
    rfl

theorem prepare_run {L : List (Key × Option Json)} (h : Stored root Tidy t)
    (hl : ∀ k v, (k, v) ∈ L → (stagingPath root k).InLimits) : ∃ entries t',
      (prepare root L).run.run t = (.ok entries, t') ∧ Stored root Tidy t' := by
  induction L generalizing t with
  | nil => exact ⟨[], t, rfl, h⟩
  | cons x L ih =>
    obtain ⟨k, v⟩ := x
    obtain ⟨entry, t₁, hone, htidy₁⟩ := prepareOne_run h v (hl k v List.mem_cons_self)
    obtain ⟨entries, t₂, hrest, htidy₂⟩ := ih htidy₁ fun k v hkv =>
      hl k v (List.mem_cons_of_mem _ hkv)
    refine ⟨entry.toList ++ entries, t₂, ?_, htidy₂⟩
    unfold prepare
    rw [run_bind_of_ok hone, run_bind_of_ok hrest]
    rfl

/-! ## Writing the journal -/

theorem writeJournal_run (h : Stored root Tidy t) (hl : (journalStagingPath root).InLimits)
    (entries : List JournalEntry) : ∃ t',
      (writeJournal root entries).run.run t = (.ok (), t') ∧ Stored root Tidy t' := by
  have hparent : ∀ {t n}, Stored root Tidy t →
      t.get? (place root [] n).dropLast = some .directory := fun h => by
    rw [dropLast_place, List.append_nil]
    exact h.1
  rw [journalStagingPath_eq] at hl
  -- The name of the journal is the shorter of the two, so it is in the limits with its draft.
  have hlj : (place root [] journalName).InLimits := Path.InLimits.of_last hl (by decide)
  obtain ⟨t₁, hwrite⟩ := FileTree.write_isOk hl.2 (Tidy.not_directory h (by decide))
    (hparent h) (journalBytes entries)
  have htidy₁ : Stored root Tidy t₁ := stored_tidy_call (own_write (by decide)) h hwrite
  have hsource := (FileTree.get?_of_write hwrite).2.2 (place root [] journalStagingName)
  rw [if_pos rfl] at hsource
  obtain ⟨t₂, hrename⟩ := FileTree.rename_isOk hl.2 hsource hlj.2
    (Tidy.not_directory htidy₁ (by decide)) (hparent htidy₁)
  have hown : Own root (.rename (place root [] journalStagingName) (place root [] journalName)) :=
    (own_rename (by decide) (by decide) (by decide)).1
  refine ⟨t₂, ?_, stored_tidy_call hown htidy₁ hrename⟩
  unfold writeJournal
  rw [journalStagingPath_eq, journalPath_eq,
    run_bind_of_ok (run_step_of_ok (run_make_of_ok (by simpa [FileCall.paths] using hl.1) hwrite))]
  exact run_step_of_ok (run_make_of_ok (by simp [FileCall.paths, hl.1, hlj.1]) hrename)

/-! ## Committing -/

/-- Nothing stands in the way of the entries of changes whose files are within the limits. -/
theorem clear_of_tidy {G c : Contents} {L : List (Key × Option Json)} (h : Tidy c)
    (hl : ∀ k v, (k, v) ∈ L → (stagingPath root k).InLimits) {e : JournalEntry}
    (he : e ∈ L.filterMap (planned root G)) : Clear root e c := by
  obtain ⟨-, -, v, hmem, -⟩ := mem_planned_iff.mp he
  exact ⟨hl _ _ hmem, h.no_directory _ _, h.no_directory _ _⟩

theorem attempt_isLanded {L : List (Key × Option Json)} (hL : (L.map (·.1)).Nodup)
    (h : Stored root Tidy t) (hG : AtRest root (contents root t))
    (hlj : (journalStagingPath root).InLimits)
    (hl : ∀ k v, (k, v) ∈ L → (stagingPath root k).InLimits) :
    ∃ entries, ((attempt root L).run t).1 = .landed entries := by
  obtain ⟨entries, t₁, hprepare, htidy₁⟩ := prepare_run h hl
  have hprepared := ((leads_prepare_all (F := False) (hG.staging L) hL).meets h.1).run
  rw [hprepare] at hprepared
  obtain ⟨hr₁, hstaging, hpost⟩ := hprepared
  obtain ⟨hplanned, hstaged⟩ := hpost entries rfl
  unfold attempt
  rw [Script.run_bind, hprepare]
  cases entries with
  | nil => exact ⟨[], rfl⟩
  | cons e rest =>
    refine ⟨e :: rest, ?_⟩
    obtain ⟨t₂, hjournal, htidy₂⟩ := writeJournal_run htidy₁ hlj (e :: rest)
    have harmed := ((leads_writeJournal (F := False) hG hL hstaging hstaged hplanned).meets hr₁).run
    rw [hjournal] at harmed
    have hland := ((leads_land (F := False) hL harmed.2).meets harmed.1).run.2
    show (Script.run ((writeJournal root (e :: rest)).run >>= _) t₁).1 = _
    rw [Script.run_bind, hjournal]
    show (Script.run ((land root (e :: rest)).run >>= _) t₂).1 = _
    rw [Script.run_bind]
    rw [← hplanned] at hland
    cases hres : ((land root (e :: rest)).run.run t₂).1 with
    | ok u => rfl
    | error err =>
      rw [hres] at hland
      -- Landing fails only where something is in the way, and in a tidy store nothing is.
      obtain ⟨e', he', hclear⟩ := hland.2 id
      exact absurd (clear_of_tidy htidy₂.2 hl (hplanned ▸ he')) hclear

/-- **A commit to a tidy store succeeds**, if its paths are within the limits. -/
theorem commit_isOk (h : Stored root Tidy t) (hG : AtRest root (contents root t))
    (hlj : (journalStagingPath root).InLimits)
    (hl : ∀ k v, (k, v) ∈ staged.toList → (stagingPath root k).InLimits) :
    ((commit root staged).run t).1 = .ok () := by
  obtain ⟨entries, hlanded⟩ := attempt_isLanded (nodup_keys staged) h hG hlj hl
  rw [commit_eq, Script.run_bind, hlanded, cleanUp, Script.run_bind]
  rfl

end AppRegistry.Disk
