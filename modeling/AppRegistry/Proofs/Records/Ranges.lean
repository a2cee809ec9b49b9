import AppRegistry.Proofs.Key.Text
import AppRegistry.Records.Overlay

/-!
# Walking a range

A range can be listed in two ways: by asking `KeyRange.contains` of every key, and by a walk over an
ascending list that starts at `KeyRange.start` and stops at the first key for which
`KeyRange.isPast` holds.

Main result: `KeyRange.walk_eq_filter`, the two agree on every list in key order.

The walk skips nothing because a key of the range never comes before the start
(`not_lt_start_of_contains`). It stops in time because a key past the range, once the walk has
begun, comes after every key of the range (`not_contains_of_isPast`).
-/

namespace AppRegistry

/-! ## Lists of components in order -/

theorem compare_append_left (a x y : List String) : compare (a ++ x) (a ++ y) = compare x y := by
  induction a with
  | nil => rfl
  | cons c a ih =>
    have hc : compare c c = .eq := Std.ReflCmp.compare_self
    rw [List.cons_append, List.cons_append, List.compare_cons_cons, hc, ih]
    rfl

/-- A list that does not start with `a`, but is not before a list that does, is after all that do.
-/
theorem compare_append_eq_gt {a l y : List String} (hp : ¬ a <+: l)
    (hl : compare l (a ++ y) ≠ .lt) (x : List String) : compare l (a ++ x) = .gt := by
  induction a generalizing l with
  | nil => exact absurd List.nil_prefix hp
  | cons c a ih =>
    cases l with
    | nil => exact absurd rfl hl
    | cons d l =>
      have hcons : ∀ z, compare (d :: l) (c :: a ++ z) = (compare d c).then (compare l (a ++ z)) :=
        fun z => List.compare_cons_cons
      rw [hcons] at hl ⊢
      cases hdc : compare d c with
      | lt => rw [hdc] at hl; exact absurd rfl hl
      | gt => rfl
      | eq =>
        obtain rfl := Std.LawfulEqCmp.eq_of_compare hdc
        rw [hdc] at hl
        exact ih (fun h => hp (List.cons_prefix_cons.mpr ⟨rfl, h⟩)) hl

namespace KeyRange

variable {r : KeyRange} {k l : Key}

/-! ## What a range says of a key -/

theorem below?_eq_none_iff {base : Key} :
    k.below? base = none ↔ ¬ base.components <+: k.components := by
  unfold Key.below? Key.isBelow
  split
  · next h => simp [List.isPrefixOf_iff_prefix.mp h]
  · next h => simp [← List.isPrefixOf_iff_prefix, h]

/-- The base lies in a range without bounds only, any other key if the bounds admit the component
after the base. -/
theorem contains_iff : r.contains k = true ↔
    (k.components = r.base.components ∧ r.lower = none ∧ r.upper = none) ∨
      ∃ c rest, k.components = r.base.components ++ c :: rest ∧ r.admits c = true := by
  unfold contains
  cases hb : k.below? r.base with
  | none =>
    have hp := below?_eq_none_iff.mp hb
    simp only [Bool.false_eq_true, false_iff, not_or, not_and, not_exists]
    exact ⟨fun h => absurd (h ▸ List.prefix_rfl) hp,
      fun c rest h => absurd (h ▸ List.prefix_append _ _) hp⟩
  | some rest =>
    have hk := Key.below?_eq_some_iff.mp hb
    cases hr : rest.components with
    | nil => simp [hk, hr]
    | cons c cs => simp [hk, hr]

theorem admits_iff {c : String} : r.admits c = true ↔
    (∀ b, r.lower = some b → (compare b c).isLE = true) ∧
      ∀ b, r.upper = some b → (compare c b).isLE = true := by
  unfold admits
  cases r.lower <;> cases r.upper <;> simp

theorem isPast_iff : r.isPast k = true ↔ ¬ r.base.components <+: k.components ∨
    ∃ c rest u, k.components = r.base.components ++ c :: rest ∧ r.upper = some u ∧
      compare c u = .gt := by
  unfold isPast
  cases hb : k.below? r.base with
  | none => simpa using Or.inl (below?_eq_none_iff.mp hb)
  | some rest =>
    have hk := Key.below?_eq_some_iff.mp hb
    have hp : r.base.components <+: k.components := hk ▸ List.prefix_append _ _
    cases hr : rest.components with
    | nil => simp [hk, hr]
    | cons c cs => cases hu : r.upper <;> simp [hk, hr]

/-! ## Start and end of a walk -/

theorem not_lt_start_of_contains (h : r.contains k = true) :
    compare k.components r.start ≠ .lt := by
  unfold start
  rcases contains_iff.mp h with ⟨hk, hl, -⟩ | ⟨c, rest, hk, ha⟩
  · rw [hk, hl]
    simp
  · rw [hk, compare_append_left]
    cases hl : r.lower with
    | none => exact fun h => by cases h
    | some b =>
      have hbc := (admits_iff.mp ha).1 b hl
      have hswap : compare c b = (compare b c).swap := Std.OrientedCmp.eq_swap
      rw [Option.toList_some, List.compare_cons_cons, hswap]
      cases hcmp : compare b c with
      | lt => simp
      | eq => cases rest <;> exact fun h => by cases h
      | gt => rw [hcmp] at hbc; cases hbc

theorem not_contains_of_isPast (hk : r.isPast k = true)
    (hs : compare k.components r.start ≠ .lt) (hkl : compare k l = .lt) :
    r.contains l = false := by
  rw [Bool.eq_false_iff]
  intro hl
  have hlb : ∃ rest, l.components = r.base.components ++ rest := by
    rcases contains_iff.mp hl with ⟨h, -⟩ | ⟨c, rest, h, -⟩
    · exact ⟨[], by simp [h]⟩
    · exact ⟨_, h⟩
  rw [Key.compare_eq] at hkl
  rcases isPast_iff.mp hk with hp | ⟨c, rest, u, hkc, hu, hcu⟩
  · obtain ⟨x, hx⟩ := hlb
    rw [hx, compare_append_eq_gt hp hs x] at hkl
    cases hkl
  · rcases contains_iff.mp hl with ⟨-, -, hn⟩ | ⟨d, rest', hld, ha⟩
    · rw [hu] at hn; cases hn
    · have hdu := (admits_iff.mp ha).2 u hu
      rw [hkc, hld, compare_append_left] at hkl
      have hcd : (compare c d).isLE = true := by
        rw [List.compare_cons_cons] at hkl
        cases hcmp : compare c d with
        | gt => rw [hcmp] at hkl; cases hkl
        | lt | eq => rfl
      have := Std.TransCmp.isLE_trans hcd hdu
      rw [hcu] at this
      cases this

/-! ## The walk -/

theorem filter_dropWhile_of_imp {α : Type} {p q : α → Bool} (h : ∀ a, p a = true → q a = false)
    (l : List α) : (l.dropWhile p).filter q = l.filter q := by
  induction l with
  | nil => rfl
  | cons a l ih =>
    rw [List.dropWhile_cons]
    split
    · next ha => rw [ih, List.filter_cons, h a ha]; rfl
    · rfl

/-- A walk may stop at the first member for which `p` holds, if no later member is wanted. -/
theorem filter_takeWhile_of_pairwise {α : Type} {p q : α → Bool} {l : List α}
    (hq : ∀ a ∈ l, p a = true → q a = false)
    (h : l.Pairwise fun a b => p a = true → q b = false) :
    (l.takeWhile fun a => !p a).filter q = l.filter q := by
  induction l with
  | nil => rfl
  | cons a l ih =>
    obtain ⟨ha, hl⟩ := List.pairwise_cons.mp h
    rw [List.takeWhile_cons]
    cases hp : p a with
    | false =>
      simp only [Bool.not_false, if_true, List.filter_cons]
      rw [ih (fun b hb => hq b (List.mem_cons_of_mem _ hb)) hl]
    | true =>
      simp only [Bool.not_true, Bool.false_eq_true, if_false, List.filter_nil]
      symm
      rw [List.filter_eq_nil_iff]
      intro b hb
      rcases List.mem_cons.mp hb with rfl | hb
      · simp [hq b List.mem_cons_self hp]
      · simp [ha b hb hp]

theorem not_of_mem_dropWhile {α : Type} {p : α → Bool} {l : List α}
    (h : l.Pairwise fun a b => p b = true → p a = true) {a : α} (ha : a ∈ l.dropWhile p) :
    p a = false := by
  induction l with
  | nil => cases ha
  | cons b l ih =>
    obtain ⟨hb, hl⟩ := List.pairwise_cons.mp h
    rw [List.dropWhile_cons] at ha
    split at ha
    · exact ih hl ha
    · next hpb =>
      rw [Bool.eq_false_iff]
      intro hpa
      rcases List.mem_cons.mp ha with rfl | ha
      · exact hpb hpa
      · exact hpb (hb a ha hpa)

/-- **A walk of a range keeps exactly the keys that the range contains.** -/
theorem walk_eq_filter {α : Type} (r : KeyRange) {l : List (Key × α)}
    (h : l.Pairwise fun a b => compare a.1 b.1 = .lt) :
    r.walk l = l.filter fun e => r.contains e.1 := by
  unfold walk
  have hdrop : (l.dropWhile fun e => compare e.1.components r.start == .lt).Sublist l :=
    List.dropWhile_sublist _
  have hstart : ∀ e ∈ l.dropWhile fun e => compare e.1.components r.start == .lt,
      compare e.1.components r.start ≠ .lt := by
    intro e he
    have := not_of_mem_dropWhile (h.imp fun {a b} hab hb => ?_) he
    · simpa using this
    · rw [Key.compare_eq] at hab
      simp only [beq_iff_eq] at hb ⊢
      exact Std.TransCmp.lt_trans hab hb
  rw [filter_takeWhile_of_pairwise]
  · refine filter_dropWhile_of_imp (fun e he => ?_) l
    rw [Bool.eq_false_iff]
    exact fun hc => not_lt_start_of_contains hc (by simpa using he)
  · intro e _ hp
    rw [Bool.eq_false_iff]
    intro hc
    rcases contains_iff.mp hc with ⟨hk, -, hu⟩ | ⟨c, rest, hk, ha⟩
    · rcases isPast_iff.mp hp with hp | ⟨_, _, u, _, hu', _⟩
      · exact hp (hk ▸ List.prefix_rfl)
      · rw [hu] at hu'; cases hu'
    · rcases isPast_iff.mp hp with hp | ⟨d, _, u, hk', hu, hgt⟩
      · exact hp (hk ▸ List.prefix_append _ _)
      · obtain ⟨rfl, -⟩ := List.cons.inj (List.append_cancel_left (hk ▸ hk'))
        have := (admits_iff.mp ha).2 u hu
        rw [hgt] at this
        cases this
  · refine List.Pairwise.imp_of_mem (fun {a b} ha _ hab hp => ?_) (h.sublist hdrop)
    exact not_contains_of_isPast hp (hstart a ha) hab

end KeyRange

end AppRegistry
