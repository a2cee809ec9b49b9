import AppRegistry.Files.Written
import AppRegistry.Proofs.Files.Lookup

/-!
# Written paths that name a place

The written form of a path names the directory at that path, whatever else stands in the tree, if
its names are plain: `names_text`.
-/

namespace AppRegistry

/-- Whether all names of a path stand for themselves where it is written. -/
def Path.IsPlain (p : Path) : Prop := ∀ name ∈ p,
  name ≠ "" ∧ name ≠ "." ∧ name ≠ ".." ∧ '/' ∉ name.toList ∧ '\x00' ∉ name.toList

instance (p : Path) : Decidable p.IsPlain :=
  inferInstanceAs (Decidable (∀ name ∈ p, _ ∧ _ ∧ _ ∧ _ ∧ _))

namespace WrittenPath

variable {p : Path} {t : FileTree}

/-- Whether a written path leads to a directory wherever it stands. -/
def Names (w : WrittenPath) (p : Path) : Prop :=
  ∀ t, t.get? p = some .directory → find t w = .ok (p, .directory)

theorem toList_text (p : Path) :
    p.text.toList = '/' :: ['/'].intercalate (p.map String.toList) := by
  rw [Path.text, String.toList_append, String.toList_intercalate]
  rfl

theorem parts_text (h : p.IsPlain) (hp : p ≠ []) : parts p.text = "" :: p := by
  have hcons : '/' :: ['/'].intercalate (p.map String.toList) =
      ['/'].intercalate ([] :: p.map String.toList) := by
    cases p with
    | nil => exact absurd rfl hp
    | cons name p => simp [List.intercalate]
  rw [parts, toList_text, hcons, List.splitOn_intercalate '/' _ (by simp)]
  · rw [List.map_cons, List.map_map]
    exact congrArg _ ((List.map_congr_left fun c _ => String.ofList_toList).trans (List.map_id _))
  · intro cs hcs
    rcases List.mem_cons.mp hcs with rfl | hcs
    · exact List.not_mem_nil
    · obtain ⟨c, hc, rfl⟩ := List.mem_map.mp hcs
      exact (h c hc).2.2.2.1

/-- Plain names lead down. -/
theorem follow_plain (h : p.IsPlain) (here : Path) :
    follow t ⟨here, 0⟩ p = .ok ⟨here ++ p, 0⟩ := by
  induction p generalizing here with
  | nil => rw [follow, List.append_nil]
  | cons name p ih =>
    obtain ⟨⟨hne, hdot, hdots, -⟩, hrest⟩ := List.forall_mem_cons.mp h
    rw [follow, if_neg hne, if_neg hdot, if_neg hdots]
    show follow t ⟨here ++ [name], 0⟩ p = _
    rw [ih hrest, List.append_assoc, List.singleton_append]

theorem mem_of_mem_intercalate {s c : Char} {l : List (List Char)} (h : c ∈ [s].intercalate l) :
    c = s ∨ ∃ cs ∈ l, c ∈ cs := by
  induction l with
  | nil => cases h
  | cons a l ih =>
    cases l with
    | nil =>
      rw [List.intercalate_singleton] at h
      exact .inr ⟨a, List.mem_cons_self, h⟩
    | cons b l =>
      rw [List.intercalate_cons_cons, List.append_assoc, List.mem_append, List.mem_append,
        List.mem_singleton] at h
      rcases h with h | h | h
      · exact .inr ⟨a, List.mem_cons_self, h⟩
      · exact .inl h
      · rcases ih h with h | ⟨cs, hcs, h⟩
        · exact .inl h
        · exact .inr ⟨cs, List.mem_cons_of_mem _ hcs, h⟩

theorem not_mem_text (h : p.IsPlain) : '\x00' ∉ p.text.toList := by
  rw [toList_text, List.mem_cons, not_or]
  refine ⟨by decide, fun hmem => ?_⟩
  rcases mem_of_mem_intercalate hmem with hc | ⟨cs, hcs, hc⟩
  · exact absurd hc (by decide)
  · obtain ⟨name, hname, rfl⟩ := List.mem_map.mp hcs
    exact (h name hname).2.2.2.2 hc

theorem resolve_text (h : p.IsPlain) (hl : p.fits = true) : resolve t p.text = .ok ⟨p, 0⟩ := by
  have hne : p.text ≠ "" := fun h => by
    have := congrArg String.toList h
    rw [toList_text] at this
    cases this
  have hnul : p.text.toList.contains '\x00' = false := by
    simpa using not_mem_text h
  have hsize : ¬ Path.limit ≤ p.text.utf8ByteSize := by
    simpa [Path.fits] using hl
  have habsolute : isAbsolute p.text = true := by
    rw [isAbsolute, toList_text]
    rfl
  rw [resolve, if_neg hne, hnul, if_neg (by decide), if_neg hsize, habsolute, if_pos rfl]
  by_cases hp : p = []
  · subst hp
    rfl
  · rw [parts_text h hp, follow, if_pos rfl]
    exact follow_plain h []

/-- **A path with plain names is named by its written form.** -/
theorem names_text (h : p.IsPlain) (hl : p.InLimits) : Names p.text p := by
  intro t hdir
  unfold find
  rw [resolve_text h hl.1]
  simp only [bind, Except.bind, Standpoint.path?, FileTree.require_eq_ok_iff.mpr ⟨hl.2, hdir⟩]
  rfl

end WrittenPath

end AppRegistry
