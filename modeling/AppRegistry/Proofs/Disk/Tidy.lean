import AppRegistry.Proofs.Disk.Calls

/-!
# Tidy stores

Nothing stands in the way of a store whose root nobody else touches: there are no directories under
the names of its files and no files under other names (`Tidy`). Its own calls keep it so.

Main result: `stored_tidy_run`.
-/

namespace AppRegistry.Disk

variable {root : Path} {t t' : FileTree} {c : Contents} {call : FileCall} {α β : Type}

/-- There is nothing but files under hidden names. -/
structure Tidy (c : Contents) : Prop where
  no_directory : ∀ d n, c d n ≠ some .directory
  no_plain : ∀ d n, isHidden n = false → c d n = none

theorem Tidy.set (h : Tidy c) {d : Path} {n : String} {e : Option Entry} (hn : isHidden n = true)
    (he : e ≠ some .directory) : Tidy (c.set d n e) where
  no_directory d' n' := by
    unfold Contents.set
    split
    · exact he
    · exact h.no_directory d' n'
  no_plain d' n' hn' := by
    rw [Contents.set_of_ne]
    · exact h.no_plain d' n' hn'
    · rintro - rfl
      rw [hn] at hn'
      cases hn'

theorem Tidy.move (h : Tidy c) {d : Path} {n m : String} (hn : isHidden n = true)
    (hm : isHidden m = true) : Tidy (c.move d n m) :=
  (h.set hn (by simp)).set hm (h.no_directory d n)

/-- Each call of its own keeps a store tidy. -/
theorem stored_tidy_call (hown : Own root call) (h : Stored root Tidy t)
    (hrun : t.run call = .ok t') : Stored root Tidy t' := by
  obtain ⟨hr, htidy⟩ := h
  cases call with
  | createDirectory p =>
    exact stored_of_onDirectories (F := False) (c := .createDirectory p) hown ⟨hr, htidy⟩
      (.made hrun)
  | removeDirectory p =>
    exact stored_of_onDirectories (F := False) (c := .removeDirectory p) hown ⟨hr, htidy⟩
      (.made hrun)
  | write p b =>
    obtain ⟨d, n, hn, rfl⟩ := hown
    obtain ⟨hr', hc⟩ := stored_of_write hn hr hrun
    exact ⟨hr', hc ▸ htidy.set hn (by simp)⟩
  | removeFile p =>
    obtain ⟨d, n, hn, rfl⟩ := hown
    obtain ⟨hr', hc⟩ := stored_of_removeFile hn hr hrun
    exact ⟨hr', hc ▸ htidy.set hn (by simp)⟩
  | rename p q =>
    obtain ⟨d, n, m, hn, hm, hnm, rfl, rfl⟩ := hown
    obtain ⟨b, hb⟩ : ∃ b, t.get? (place root d n) = some (.file b) := by
      obtain ⟨e, he⟩ := FileTree.get?_source_of_rename hrun
      cases e with
      | file b => exact ⟨b, he⟩
      | directory => exact absurd ((contents_of_hidden hn).trans he) (htidy.no_directory d n)
    obtain ⟨hr', hc⟩ := stored_of_rename hn hm hnm hr hb hrun
    exact ⟨hr', hc ▸ htidy.move hn hm⟩

/-- **Whatever a store does keeps it tidy.** -/
theorem stored_tidy_run {s : Script α} (hs : s.Only (Own root)) (h : Stored root Tidy t) :
    Stored root Tidy (s.run t).2 :=
  hs.run (fun _ _ _ hown h hrun => stored_tidy_call hown h hrun) h

end AppRegistry.Disk
