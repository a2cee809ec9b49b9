import AppRegistry.Records.Overlay

/-!
# Maps and staged changes by look-up

Two maps with the same look-ups are equal, so a statement about maps is proved key by key. This
module says what listing a map back (`OrderedMap.ofList_toList`) and making staged changes
(`Changes.get?_applyAll`) do to a look-up.
-/

namespace AppRegistry

open Std (TransOrd LawfulEqOrd)

namespace OrderedMap

variable {κ α : Type} [Ord κ]

/-! ## Maps from lists -/

section OfList
variable [TransOrd κ] [LawfulEqOrd κ] [DecidableEq κ]

/-- Entries that agree with one function make a map that agrees with it on their keys. -/
theorem get?_insertAll {f : κ → Option α} {l : List (κ × α)} (h : ∀ e ∈ l, f e.1 = some e.2)
    (m : OrderedMap κ α) (k : κ) :
    (m.insertAll l).get? k = if k ∈ l.map (·.1) then f k else m.get? k := by
  unfold insertAll
  induction l generalizing m with
  | nil => simp
  | cons e l ih =>
    rw [List.foldl_cons, ih (fun e' he' => h e' (List.mem_cons_of_mem _ he')), get?_insert]
    by_cases hk : k ∈ l.map (·.1)
    · simp [hk]
    · by_cases he : e.1 = k
      · subst he
        simp [hk, h e List.mem_cons_self]
      · simp [hk, he, Ne.symm he]

theorem get?_ofList {f : κ → Option α} {l : List (κ × α)} (h : ∀ e ∈ l, f e.1 = some e.2)
    (k : κ) : (ofList l).get? k = if k ∈ l.map (·.1) then f k else none := by
  rw [ofList, get?_insertAll h, get?_empty]

omit [TransOrd κ] [DecidableEq κ] in
theorem mem_keys_iff (m : OrderedMap κ α) (k : κ) :
    k ∈ m.toList.map (·.1) ↔ ∃ v, m.get? k = some v := by
  simp only [List.mem_map, Prod.exists, exists_and_right, exists_eq_right, mem_toList_iff]

omit [TransOrd κ] [DecidableEq κ] in
theorem mem_values_iff (m : OrderedMap κ α) (v : α) :
    v ∈ m.values ↔ ∃ k, m.get? k = some v := by
  simp only [values, List.mem_map, Prod.exists, exists_eq_right, mem_toList_iff]

/-- What holds of every value still does once one for which it holds is put in. -/
theorem forall_insert {m : OrderedMap κ α} {P : α → Prop} {v : α} (k : κ)
    (h : ∀ l w, m.get? l = some w → P w) (hv : P v) (l : κ) (w : α)
    (hw : (m.insert k v).get? l = some w) : P w := by
  rw [get?_insert] at hw
  split at hw
  · exact Option.some.inj hw ▸ hv
  · exact h l w hw

theorem ofList_toList (m : OrderedMap κ α) : ofList m.toList = m := by
  apply ext_get?
  intro k
  rw [get?_ofList (f := m.get?) fun e he => (mem_toList_iff m e.1 e.2).mp he]
  split
  · rfl
  · next h =>
    rw [mem_keys_iff, not_exists] at h
    exact (Option.eq_none_iff_forall_ne_some.mpr h).symm

end OfList

theorem contains_eq_isSome (m : OrderedMap κ α) (k : κ) : m.contains k = (m.get? k).isSome := rfl

/-! ## Two maps as one -/

section Zip
variable {β : Type}

/-- The values of two maps under the keys that both have. -/
def zip (m : OrderedMap κ α) (n : OrderedMap κ β) : OrderedMap κ (α × β) where
  toList := m.toList.filterMap fun e => (n.get? e.1).map fun w => (e.1, e.2, w)
  ascending := by
    refine List.pairwise_filterMap.mpr (m.ascending.imp fun {a b} hab x hx y hy => ?_)
    obtain ⟨w, -, rfl⟩ := Option.map_eq_some_iff.mp hx
    obtain ⟨w', -, rfl⟩ := Option.map_eq_some_iff.mp hy
    exact hab

variable [TransOrd κ] [LawfulEqOrd κ] {m : OrderedMap κ α} {n : OrderedMap κ β}

omit [TransOrd κ] in
theorem get?_zip_eq_some_iff {k : κ} {v : α} {w : β} :
    (zip m n).get? k = some (v, w) ↔ m.get? k = some v ∧ n.get? k = some w := by
  rw [← mem_toList_iff, zip, List.mem_filterMap, ← mem_toList_iff]
  constructor
  · rintro ⟨e, he, hx⟩
    obtain ⟨w', hn, hx⟩ := Option.map_eq_some_iff.mp hx
    cases hx
    exact ⟨he, hn⟩
  · rintro ⟨hm, hn⟩
    exact ⟨(k, v), hm, Option.map_eq_some_iff.mpr ⟨w, hn, rfl⟩⟩

/-- Maps with the same keys are the two sides of one map. -/
theorem mapValues_zip (h : ∀ k, (m.get? k).isSome = (n.get? k).isSome) :
    (zip m n).mapValues Prod.fst = m ∧ (zip m n).mapValues Prod.snd = n := by
  have hzip : ∀ k, (zip m n).get? k = (m.get? k).bind fun v => (n.get? k).map (v, ·) := by
    intro k
    apply Option.ext
    rintro ⟨v, w⟩
    rw [get?_zip_eq_some_iff]
    cases m.get? k <;> cases n.get? k <;> simp
  constructor
  · refine ext_get? fun k => ?_
    have hk := h k
    rw [get?_mapValues, hzip]
    revert hk
    cases m.get? k <;> cases n.get? k <;> simp
  · refine ext_get? fun k => ?_
    have hk := h k
    rw [get?_mapValues, hzip]
    revert hk
    cases m.get? k <;> cases n.get? k <;> simp

end Zip

end OrderedMap

namespace Changes

/-! ## Staged changes -/

theorem get?_applyOne (m : OrderedMap Key Json) (k l : Key) (v : Option Json) :
    (applyOne m (k, v)).get? l = if k = l then v else m.get? l := by
  cases v with
  | none => exact OrderedMap.get?_erase m k l
  | some j => exact OrderedMap.get?_insert m k l j

theorem get?_applyAll_list {l : List (Key × Option Json)}
    (h : l.Pairwise fun a b => compare a.1 b.1 = .lt) (m : OrderedMap Key Json) (k : Key) :
    (applyAll m l).get? k = (OrderedMap.lookup k l).getD (m.get? k) := by
  unfold applyAll
  induction l generalizing m with
  | nil => rfl
  | cons e l ih =>
    obtain ⟨k', v⟩ := e
    obtain ⟨hlt, hl⟩ := List.pairwise_cons.mp h
    rw [List.foldl_cons, ih hl, get?_applyOne, OrderedMap.lookup]
    by_cases hk : k' = k
    · subst hk
      have hnone : OrderedMap.lookup k' l = none := by
        cases hlk : OrderedMap.lookup k' l with
        | none => rfl
        | some w =>
          have hmem : (k', w) ∈ l := (OrderedMap.mem_toList_iff ⟨l, hl⟩ k' w).mpr hlk
          exact absurd (hlt _ hmem) (by simp)
      simp [hnone]
    · have hne : compare k k' ≠ .eq := fun h => hk (Std.LawfulEqCmp.eq_of_compare h).symm
      simp [hk, hne]

/-- **A staged change decides for its key, and the map for every other key.** -/
theorem get?_applyAll (m : OrderedMap Key Json) (staged : Changes) (k : Key) :
    (applyAll m staged.toList).get? k = (staged.get? k).getD (m.get? k) :=
  get?_applyAll_list staged.ascending m k

theorem get?_applyAll_of_mem (m : OrderedMap Key Json) {staged : Changes} {k : Key}
    {v : Option Json} (h : (k, v) ∈ staged.toList) : (applyAll m staged.toList).get? k = v := by
  rw [get?_applyAll, (OrderedMap.mem_toList_iff _ _ _).mp h]
  rfl

theorem get?_applyAll_of_not_mem (m : OrderedMap Key Json) {staged : Changes} {k : Key}
    (h : ∀ v, (k, v) ∉ staged.toList) : (applyAll m staged.toList).get? k = m.get? k := by
  have hget : staged.get? k = none :=
    Option.eq_none_iff_forall_ne_some.mpr fun v hv => h v ((OrderedMap.mem_toList_iff _ _ _).mpr hv)
  rw [get?_applyAll, hget]
  rfl

theorem applyAll_empty (m : OrderedMap Key Json) : applyAll m (∅ : Changes).toList = m := rfl

/-- To stage a change is to make it after those staged before. -/
theorem applyAll_insert (m : OrderedMap Key Json) (staged : Changes) (k : Key) (v : Option Json) :
    applyAll m (staged.insert k v).toList = applyOne (applyAll m staged.toList) (k, v) := by
  apply OrderedMap.ext_get?
  intro l
  rw [get?_applyAll, get?_applyOne, OrderedMap.get?_insert, get?_applyAll]
  split <;> rfl

/-- Changes inside a range, made to the records of the range, give the records of the range
afterwards. -/
theorem applyAll_filter (p : Key → Bool) (m : OrderedMap Key Json) (staged : Changes) :
    applyAll (m.filter fun k _ => p k) (staged.filter fun k _ => p k).toList =
      (applyAll m staged.toList).filter fun k _ => p k := by
  apply OrderedMap.ext_get?
  intro k
  rw [get?_applyAll, OrderedMap.get?_filter, OrderedMap.get?_filter, OrderedMap.get?_filter,
    get?_applyAll]
  cases hp : p k <;> rcases staged.get? k with _ | _ | _ <;> cases m.get? k <;>
    simp [Option.filter]

end Changes

end AppRegistry
