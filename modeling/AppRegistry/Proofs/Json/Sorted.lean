import AppRegistry.Proofs.Json.RoundTrip
import AppRegistry.Proofs.Records.Maps

/-!
# Sorted form

To sort the fields of a value twice is to sort them once (`Json.sorted_sorted`), and sorting makes
no number longer (`Json.HasWords.sorted`) and no nesting deeper (`Json.depth_sorted_le`).
-/

namespace AppRegistry

namespace OrderedMap

variable {κ α : Type} [Ord κ]

theorem mem_of_mem_insertAll [Std.TransOrd κ] {l : List (κ × α)} {m : OrderedMap κ α} {e : κ × α}
    (h : e ∈ (m.insertAll l).toList) : e ∈ m.toList ∨ e ∈ l := by
  unfold insertAll at h
  induction l generalizing m with
  | nil => exact .inl h
  | cons a l ih =>
    rcases ih h with h | h
    · rcases mem_of_mem_insertInto h with rfl | h
      · exact .inr List.mem_cons_self
      · exact .inl h
    · exact .inr (List.mem_cons_of_mem a h)

theorem mem_of_mem_ofList [Std.TransOrd κ] {l : List (κ × α)} {e : κ × α}
    (h : e ∈ (ofList l).toList) : e ∈ l :=
  (mem_of_mem_insertAll h).resolve_left List.not_mem_nil

/-- Look-up in a map is look-up in its list. -/
theorem lookup_toList [Std.LawfulEqOrd κ] [BEq κ] [LawfulBEq κ] (m : OrderedMap κ α) (k : κ) :
    m.toList.lookup k = m.get? k := by
  unfold get?
  induction m.toList with
  | nil => rfl
  | cons e l ih =>
    obtain ⟨k', v⟩ := e
    rw [List.lookup_cons, OrderedMap.lookup]
    by_cases hk : k = k'
    · subst hk
      simp
    · have hcmp : compare k k' ≠ .eq := fun h => hk (Std.LawfulEqCmp.eq_of_compare h)
      simp [beq_false_of_ne hk, hcmp, ih]

theorem nodup_keys [Std.LawfulEqOrd κ] (m : OrderedMap κ α) : (m.toList.map (·.1)).Nodup := by
  refine List.pairwise_map.mpr (m.ascending.imp fun {a b} h he => ?_)
  simp [he] at h

end OrderedMap

namespace Json

/-! ## Items and fields -/

theorem sortedItems_eq_map (l : List Json) : sortedItems l = l.map sorted := by
  induction l with
  | nil => rfl
  | cons j l ih => rw [sortedItems, ih, List.map_cons]

theorem sortedFields_eq_map (l : List (String × Json)) :
    sortedFields l = l.map fun f => (f.1, f.2.sorted) := by
  induction l with
  | nil => rfl
  | cons f l ih =>
    obtain ⟨name, j⟩ := f
    rw [sortedFields, ih, List.map_cons]

theorem itemsHaveWords_iff {l : List Json} : ItemsHaveWords l ↔ ∀ j ∈ l, j.HasWords := by
  induction l with
  | nil => simp [ItemsHaveWords]
  | cons j l ih => rw [ItemsHaveWords, ih, List.forall_mem_cons]

theorem fieldsHaveWords_iff {l : List (String × Json)} :
    FieldsHaveWords l ↔ ∀ f ∈ l, f.2.HasWords := by
  induction l with
  | nil => simp [FieldsHaveWords]
  | cons f l ih =>
    obtain ⟨name, j⟩ := f
    rw [FieldsHaveWords, ih, List.forall_mem_cons]

theorem itemsDepth_le_iff {l : List Json} {n : Nat} :
    itemsDepth l ≤ n ↔ ∀ j ∈ l, j.depth ≤ n := by
  induction l with
  | nil => simp [itemsDepth]
  | cons j l ih => rw [itemsDepth, Nat.max_le, ih, List.forall_mem_cons]

theorem fieldsDepth_le_iff {l : List (String × Json)} {n : Nat} :
    fieldsDepth l ≤ n ↔ ∀ f ∈ l, f.2.depth ≤ n := by
  induction l with
  | nil => simp [fieldsDepth]
  | cons f l ih =>
    obtain ⟨name, j⟩ := f
    rw [fieldsDepth, Nat.max_le, ih, List.forall_mem_cons]

/-- A field of a sorted object is a field of the object, with its value sorted. -/
theorem mem_sorted_fields {l : List (String × Json)} {f : String × Json}
    (h : f ∈ (OrderedMap.ofList (sortedFields l)).toList) :
    ∃ j, (f.1, j) ∈ l ∧ f.2 = j.sorted := by
  have hmem := OrderedMap.mem_of_mem_ofList h
  rw [sortedFields_eq_map] at hmem
  obtain ⟨e, he, rfl⟩ := List.mem_map.mp hmem
  exact ⟨e.2, he, rfl⟩

/-! ## Sorting twice -/

mutual

theorem sorted_sorted : ∀ j : Json, j.sorted.sorted = j.sorted
  | null | bool _ | number _ | string _ => rfl
  | array items => by
    rw [sorted, sorted, sortedItems_sortedItems items]
  | object fields => by
    have hfields : ∀ f ∈ (OrderedMap.ofList (sortedFields fields)).toList, f.2.sorted = f.2 := by
      intro f hf
      obtain ⟨j, hj, hfj⟩ := mem_sorted_fields hf
      rw [hfj, sorted_of_mem fields _ hj]
    have hsame : sortedFields (OrderedMap.ofList (sortedFields fields)).toList =
        (OrderedMap.ofList (sortedFields fields)).toList := by
      rw [sortedFields_eq_map]
      refine (List.map_congr_left fun f hf => ?_).trans (List.map_id' _)
      exact Prod.ext rfl (hfields f hf)
    rw [sorted, sorted, hsame, OrderedMap.ofList_toList]

theorem sortedItems_sortedItems : ∀ l : List Json, sortedItems (sortedItems l) = sortedItems l
  | [] => rfl
  | j :: l => by rw [sortedItems, sortedItems, sorted_sorted j, sortedItems_sortedItems l]

theorem sorted_of_mem : ∀ (l : List (String × Json)) (f : String × Json), f ∈ l →
    f.2.sorted.sorted = f.2.sorted
  | [], _, h => absurd h List.not_mem_nil
  | (_, j) :: l, f, h => by
    rcases List.mem_cons.mp h with hf | h
    · rw [hf]
      exact sorted_sorted j
    · exact sorted_of_mem l f h

end

/-! ## Words and depth -/

mutual

theorem HasWords.sorted : ∀ {j : Json}, j.HasWords → j.sorted.HasWords
  | null, h | bool _, h | number _, h | string _, h => h
  | array items, h => itemsHaveWords_iff.mpr fun j hj => by
    rw [sortedItems_eq_map] at hj
    obtain ⟨i, hi, rfl⟩ := List.mem_map.mp hj
    exact HasWords.sorted_item items h hi
  | object fields, h => fieldsHaveWords_iff.mpr fun f hf => by
    obtain ⟨j, hj, hfj⟩ := mem_sorted_fields hf
    exact hfj ▸ HasWords.sorted_field fields h hj

theorem HasWords.sorted_item : ∀ (l : List Json), ItemsHaveWords l → ∀ {j : Json}, j ∈ l →
    j.sorted.HasWords
  | [], _, _, hj => absurd hj List.not_mem_nil
  | i :: l, h, j, hj => by
    rcases List.mem_cons.mp hj with hji | hj
    · rw [hji]
      exact HasWords.sorted h.1
    · exact HasWords.sorted_item l h.2 hj

theorem HasWords.sorted_field : ∀ (l : List (String × Json)), FieldsHaveWords l →
    ∀ {f : String × Json}, f ∈ l → f.2.sorted.HasWords
  | [], _, _, hf => absurd hf List.not_mem_nil
  | (_, i) :: l, h, f, hf => by
    rcases List.mem_cons.mp hf with hfi | hf
    · rw [hfi]
      exact HasWords.sorted h.1
    · exact HasWords.sorted_field l h.2 hf

end

mutual

theorem depth_sorted_le : ∀ j : Json, j.sorted.depth ≤ j.depth
  | null | bool _ | number _ | string _ => Nat.le_refl _
  | array items => by
    refine Nat.succ_le_succ (itemsDepth_le_iff.mpr fun j hj => ?_)
    rw [sortedItems_eq_map] at hj
    obtain ⟨i, hi, rfl⟩ := List.mem_map.mp hj
    exact depth_sorted_item_le items hi
  | object fields => by
    refine Nat.succ_le_succ (fieldsDepth_le_iff.mpr fun f hf => ?_)
    obtain ⟨j, hj, hfj⟩ := mem_sorted_fields hf
    exact hfj ▸ depth_sorted_field_le fields hj

theorem depth_sorted_item_le : ∀ (l : List Json) {j : Json}, j ∈ l → j.sorted.depth ≤ itemsDepth l
  | [], _, hj => absurd hj List.not_mem_nil
  | i :: l, j, hj => by
    rw [itemsDepth]
    rcases List.mem_cons.mp hj with hji | hj
    · rw [hji]
      exact Nat.le_trans (depth_sorted_le i) (Nat.le_max_left _ _)
    · exact Nat.le_trans (depth_sorted_item_le l hj) (Nat.le_max_right _ _)

theorem depth_sorted_field_le : ∀ (l : List (String × Json)) {f : String × Json}, f ∈ l →
    f.2.sorted.depth ≤ fieldsDepth l
  | [], _, hf => absurd hf List.not_mem_nil
  | (_, i) :: l, f, hf => by
    rw [fieldsDepth]
    rcases List.mem_cons.mp hf with rfl | hf
    · exact Nat.le_trans (depth_sorted_le i) (Nat.le_max_left _ _)
    · exact Nat.le_trans (depth_sorted_field_le l hf) (Nat.le_max_right _ _)

end

end Json

end AppRegistry
