import AppRegistry.Files.Script
import AppRegistry.Proofs.Files.Effect

/-!
# Making directories

A directory is made together with its missing parents wherever its path is in the limits and no file
is in the way.

Main result: `createDirectories_run`.
-/

namespace AppRegistry

namespace Script

variable {t : FileTree} {p : Path}

theorem ancestors_concat (p : Path) (name : String) :
    ancestors (p ++ [name]) = (p ++ [name]) :: ancestors p := by
  unfold ancestors
  rw [List.length_append, List.length_singleton, List.range_succ_eq_map, List.map_cons,
    List.map_map]
  refine congrArg₂ List.cons (List.take_of_length_le (by simp)) (List.map_congr_left fun i hi => ?_)
  have hi := List.mem_range.mp hi
  simp only [Function.comp_apply]
  rw [show p.length + 1 - (i + 1) = p.length - i by omega, List.take_append_of_le_length (by omega)]

/-- A directory whose parent is there is made, or it is there already. -/
theorem createUnlessThere_run (hl : p.InLimits)
    (hparent : t.get? p.dropLast = some .directory) (hfile : ∀ b, t.get? p ≠ some (.file b)) :
    ∃ t', (createUnlessThere (make (.createDirectory p)) fun t => t.isDirectory p).run t =
        (.ok (), t') ∧ ∀ r, t'.get? r = if p = r then some .directory else t.get? r := by
  have hmake : make (.createDirectory p) = attempt (.createDirectory p) :=
    make_of_fits (by simpa [FileCall.paths] using hl.1)
  unfold createUnlessThere
  rw [hmake, run_bind, run_attempt]
  cases hx : t.get? p with
  | none =>
    obtain ⟨t', ht'⟩ := FileTree.createDirectory_isOk hl.2 hx hparent
    rw [ht']
    exact ⟨t', rfl, (FileTree.get?_of_createDirectory ht').2⟩
  | some e =>
    obtain rfl : e = .directory := by
      cases e with
      | directory => rfl
      | file b => exact absurd hx (hfile b)
    rw [FileTree.createDirectory_of_present hl.2 hx]
    refine ⟨t, ?_, fun r => ?_⟩
    · show (see (fun t => t.isDirectory p) >>= _).run t = _
      rw [run_bind, run_see, FileTree.isDirectory_iff.mpr ⟨hl, hx⟩]
      rfl
    · split
      · next hr => rw [← hr, hx]
      · rfl

/-- A directory whose parent is missing is not made. -/
theorem createUnlessThere_run_missing (hl : p.InLimits) (hp : p ≠ [])
    (hparent : t.get? p.dropLast ≠ some .directory)
    (hfree : ∀ q, q <+: p → ∀ b, t.get? q ≠ some (.file b)) :
    (createUnlessThere (make (.createDirectory p)) fun t => t.isDirectory p).run t =
      (.error .notFound, t) := by
  have hmake : make (.createDirectory p) = attempt (.createDirectory p) :=
    make_of_fits (by simpa [FileCall.paths] using hl.1)
  have hnone : t.get? p = none := by
    cases hx : t.get? p with
    | none => rfl
    | some e => exact absurd (FileTree.get?_dropLast hx hp) hparent
  have hslot : t.slot p = .error .notFound := by
    refine (FileTree.slot_of_free hl.2 hnone hfree).resolve_left fun hslot => hparent ?_
    exact (FileTree.slot_eq_ok_iff.mp hslot).2.2 hp
  have hrun : t.run (.createDirectory p) = .error .notFound := by
    simp only [FileTree.run, FileTree.createDirectory, hslot]
  unfold createUnlessThere
  rw [hmake, run_bind, run_attempt, hrun]
  rfl

/-- **A directory is made with its parents** where no file is in the way, and nothing else is made.
-/
theorem createDirectories_run (hl : p.InLimits)
    (hfree : ∀ q, q <+: p → ∀ b, t.get? q ≠ some (.file b)) :
    ∃ t', (createDirectories p).run t = (.ok (), t') ∧
      ∀ q, t'.get? q = if q <+: p then some .directory else t.get? q := by
  unfold createDirectories
  induction p using List.reverseRecOn with
  | nil =>
    refine ⟨t, rfl, fun q => ?_⟩
    split
    · next hq => rw [List.prefix_nil.mp hq, FileTree.get?_nil]
    · rfl
  | append_singleton p name ih =>
    have hne : p ++ [name] ≠ [] := by simp
    rw [ancestors_concat, createFrom, run_bind]
    -- With its parent there the directory is made at once. Without it the first try fails, the
    -- parents are made, and the second try succeeds.
    by_cases hparent : t.get? p = some .directory
    · obtain ⟨t', hrun, hget⟩ := createUnlessThere_run hl (by rwa [List.dropLast_concat])
        (hfree _ List.prefix_rfl)
      rw [hrun]
      refine ⟨t', rfl, fun q => ?_⟩
      rw [hget]
      by_cases hq : p ++ [name] = q
      · rw [if_pos hq, if_pos (hq ▸ List.prefix_rfl)]
      · rw [if_neg hq]
        split
        · next hprefix =>
          obtain ⟨rest, rfl⟩ := (List.prefix_concat_iff.mp hprefix).resolve_left (Ne.symm hq)
          by_cases hrest : rest = []
          · rwa [hrest, List.append_nil] at hparent
          · exact FileTree.get?_of_append hparent hrest
        · rfl
    · rw [createUnlessThere_run_missing hl hne (by rwa [List.dropLast_concat]) hfree]
      obtain ⟨t₁, hrun, hget₁⟩ := ih hl.of_append fun q hq =>
        hfree q (hq.trans (List.prefix_append p [name]))
      show ∃ t', (createFrom _ _ (ancestors p) >>= _).run t = _ ∧ _
      rw [run_bind, hrun]
      have hnotprefix : ¬ p ++ [name] <+: p := fun h => absurd h.length_le (by simp)
      obtain ⟨t', hrun', hget⟩ := createUnlessThere_run (t := t₁) hl
        (by rw [List.dropLast_concat, hget₁, if_pos List.prefix_rfl]) (by
          rw [hget₁, if_neg hnotprefix]
          exact hfree _ List.prefix_rfl)
      refine ⟨t', hrun', fun q => ?_⟩
      rw [hget, hget₁]
      simp only [List.prefix_concat_iff, eq_comm (a := p ++ [name])]
      by_cases hq : q = p ++ [name]
      · rw [if_pos hq, if_pos (.inl hq)]
      · simp only [hq, if_false, false_or]

end Script

end AppRegistry
