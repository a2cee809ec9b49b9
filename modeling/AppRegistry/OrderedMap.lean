/-!
# Maps in key order

A finite map held as the list of its entries in strictly ascending key order. Listing a map,
comparing two maps and writing one out therefore all see the same order, and two maps with the
same look-ups are equal (`OrderedMap.ext_get?`).

Look-up is the view of a map: `get?_insert`, `get?_erase`, `get?_filter` and `get?_mapValues` say
what each operation does to it.
-/

namespace AppRegistry

open Std (TransOrd LawfulEqOrd)

/-- A finite map listed in strictly ascending key order. -/
structure OrderedMap (κ : Type) (α : Type) [Ord κ] where
  toList : List (κ × α)
  ascending : toList.Pairwise fun a b => compare a.1 b.1 = .lt

namespace OrderedMap

variable {κ α β : Type} [Ord κ]

theorem ext_toList {m n : OrderedMap κ α} (h : m.toList = n.toList) : m = n := by
  cases m; cases n; cases h; rfl

instance [DecidableEq κ] [DecidableEq α] : DecidableEq (OrderedMap κ α) := fun m n =>
  if h : m.toList = n.toList then isTrue (ext_toList h)
  else isFalse fun e => h (congrArg toList e)

instance [Repr κ] [Repr α] : Repr (OrderedMap κ α) := ⟨fun m p => reprPrec m.toList p⟩

/-! ## Operations on ascending lists -/

/-- The value listed under `k`. -/
def lookup (k : κ) : List (κ × α) → Option α
  | [] => none
  | (k', v) :: r => if compare k k' = .eq then some v else lookup k r

/-- Puts `v` under `k`, at the place that keeps the list ascending. -/
def insertInto (k : κ) (v : α) : List (κ × α) → List (κ × α)
  | [] => [(k, v)]
  | (k', v') :: r =>
    match compare k k' with
    | .lt => (k, v) :: (k', v') :: r
    | .eq => (k, v) :: r
    | .gt => (k', v') :: insertInto k v r

theorem mem_of_mem_insertInto {k : κ} {v : α} {e : κ × α} {l : List (κ × α)}
    (h : e ∈ insertInto k v l) : e = (k, v) ∨ e ∈ l := by
  induction l with
  | nil => simpa [insertInto] using h
  | cons p r ih =>
    obtain ⟨k', v'⟩ := p
    simp only [insertInto] at h
    split at h <;> grind

theorem ascending_insertInto [TransOrd κ] (k : κ) (v : α) {l : List (κ × α)}
    (h : l.Pairwise fun a b => compare a.1 b.1 = .lt) :
    (insertInto k v l).Pairwise fun a b => compare a.1 b.1 = .lt := by
  induction l with
  | nil => simp [insertInto]
  | cons p r ih =>
    obtain ⟨k', v'⟩ := p
    obtain ⟨hp, hr⟩ := List.pairwise_cons.mp h
    simp only [insertInto]
    split
    · next hlt =>
      refine List.pairwise_cons.mpr ⟨fun e he => ?_, h⟩
      rcases List.mem_cons.mp he with rfl | he
      · exact hlt
      · exact Std.TransCmp.lt_trans hlt (hp e he)
    · next heq =>
      exact List.pairwise_cons.mpr
        ⟨fun e he => Std.TransCmp.lt_of_eq_of_lt heq (hp e he), hr⟩
    · next hgt =>
      refine List.pairwise_cons.mpr ⟨fun e he => ?_, ih hr⟩
      rcases mem_of_mem_insertInto he with rfl | he
      · exact Std.OrientedCmp.lt_of_gt hgt
      · exact hp e he

/-! ## Maps -/

/-- The map without entries. -/
def empty : OrderedMap κ α := ⟨[], .nil⟩

instance : EmptyCollection (OrderedMap κ α) := ⟨empty⟩
instance : Inhabited (OrderedMap κ α) := ⟨empty⟩

/-- The value under `k`, if there is one. -/
def get? (m : OrderedMap κ α) (k : κ) : Option α := lookup k m.toList

/-- Whether there is a value under `k`. -/
def contains (m : OrderedMap κ α) (k : κ) : Bool := (m.get? k).isSome

/-- Whether the map has no entry. -/
def isEmpty (m : OrderedMap κ α) : Bool := m.toList.isEmpty

/-- The number of entries. -/
def size (m : OrderedMap κ α) : Nat := m.toList.length

/-- The keys, ascending. -/
def keys (m : OrderedMap κ α) : List κ := m.toList.map (·.1)

/-- The values, in the order of their keys. -/
def values (m : OrderedMap κ α) : List α := m.toList.map (·.2)

/-- The entries that satisfy `p`. -/
def filter (p : κ → α → Bool) (m : OrderedMap κ α) : OrderedMap κ α :=
  ⟨m.toList.filter fun e => p e.1 e.2, m.ascending.sublist List.filter_sublist⟩

/-- Drops the entry under `k`. -/
def erase (m : OrderedMap κ α) (k : κ) : OrderedMap κ α :=
  m.filter fun k' _ => compare k k' != .eq

/-- Changes each value and keeps its key. -/
def mapValues (f : α → β) (m : OrderedMap κ α) : OrderedMap κ β :=
  ⟨m.toList.map fun e => (e.1, f e.2), List.pairwise_map.mpr m.ascending⟩

section Insert
variable [TransOrd κ]

/-- Puts `v` under `k`, in place of what was there. -/
def insert (m : OrderedMap κ α) (k : κ) (v : α) : OrderedMap κ α :=
  ⟨insertInto k v m.toList, ascending_insertInto k v m.ascending⟩

/-- Puts every entry of the list into the map; of two entries with one key the later stays. -/
def insertAll (m : OrderedMap κ α) (l : List (κ × α)) : OrderedMap κ α :=
  l.foldl (fun m e => m.insert e.1 e.2) m

/-- The map of the listed entries; of two entries with one key the later stays. -/
def ofList (l : List (κ × α)) : OrderedMap κ α := insertAll ∅ l

end Insert

/-! ## Look-up as the view of a map -/

@[simp] theorem toList_empty : (∅ : OrderedMap κ α).toList = [] := rfl

@[simp] theorem get?_empty (k : κ) : (∅ : OrderedMap κ α).get? k = none := rfl

theorem lookup_filter [LawfulEqOrd κ] [TransOrd κ] (p : κ → α → Bool) (k : κ)
    {l : List (κ × α)} (h : l.Pairwise fun a b => compare a.1 b.1 = .lt) :
    lookup k (l.filter fun e => p e.1 e.2) = (lookup k l).filter (p k) := by
  induction l with
  | nil => rfl
  | cons e r ih =>
    obtain ⟨k', v⟩ := e
    obtain ⟨hp, hr⟩ := List.pairwise_cons.mp h
    by_cases hk : compare k k' = .eq
    · obtain rfl := Std.LawfulEqCmp.eq_of_compare hk
      have hnone : lookup k (r.filter fun e => p e.1 e.2) = none := by
        have : ∀ e ∈ r, compare k e.1 ≠ .eq := fun e he => by simp [hp e he]
        clear ih h hp hr
        induction r with
        | nil => rfl
        | cons e r ih =>
          have he := this e (by simp)
          have := ih fun e he => this e (by simp [he])
          simp only [List.filter_cons]
          split <;> simp_all [lookup]
      by_cases hpv : p k v <;> simp [lookup, hpv, hnone, Option.filter]
    · by_cases hpv : p k' v <;> simp [lookup, hk, hpv, ih hr]

theorem get?_filter [LawfulEqOrd κ] [TransOrd κ] (p : κ → α → Bool) (m : OrderedMap κ α) (k : κ) :
    (m.filter p).get? k = (m.get? k).filter (p k) :=
  lookup_filter p k m.ascending

theorem get?_erase [LawfulEqOrd κ] [TransOrd κ] [DecidableEq κ] (m : OrderedMap κ α) (k k' : κ) :
    (m.erase k).get? k' = if k = k' then none else m.get? k' := by
  rw [erase, get?_filter]
  by_cases h : k = k'
  · subst h; cases m.get? k <;> simp [Option.filter]
  · have : compare k k' ≠ .eq := fun e => h (Std.LawfulEqCmp.eq_of_compare e)
    cases m.get? k' <;> simp [h, this, Option.filter]

theorem get?_mapValues (f : α → β) (m : OrderedMap κ α) (k : κ) :
    (m.mapValues f).get? k = (m.get? k).map f := by
  obtain ⟨l, h⟩ := m
  simp only [get?, mapValues]
  clear h
  induction l with
  | nil => rfl
  | cons e r ih => simp only [List.map_cons, lookup]; split <;> simp_all

theorem lookup_insertInto [LawfulEqOrd κ] [DecidableEq κ] (k k' : κ) (v : α) (l : List (κ × α)) :
    lookup k' (insertInto k v l) = if k = k' then some v else lookup k' l := by
  have hself : ∀ a : κ, compare a a = .eq := fun a => Std.ReflCmp.compare_self
  have hne : ∀ {a b : κ}, compare a b = .eq ↔ a = b := fun {a b} =>
    ⟨Std.LawfulEqCmp.eq_of_compare, fun h => h ▸ hself a⟩
  induction l with
  | nil => by_cases h : k = k' <;> simp [insertInto, lookup, hne, h, Ne.symm]
  | cons e r ih =>
    obtain ⟨a, w⟩ := e
    simp only [insertInto]
    split
    · by_cases h : k = k'
      · subst h; simp [lookup]
      · simp [lookup, hne, h, Ne.symm h]
    · next heq =>
      obtain rfl := hne.mp heq
      by_cases h : k = k'
      · subst h; simp [lookup]
      · simp [lookup, hne, h, Ne.symm h]
    · next hgt =>
      have hka : k ≠ a := fun h => by rw [h, hself] at hgt; cases hgt
      by_cases h : k = k'
      · subst h; simp [lookup, hne, hka, ih]
      · simp [lookup, ih, h]

section Insert
variable [TransOrd κ] [LawfulEqOrd κ]

theorem get?_insert [DecidableEq κ] (m : OrderedMap κ α) (k k' : κ) (v : α) :
    (m.insert k v).get? k' = if k = k' then some v else m.get? k' :=
  lookup_insertInto k k' v m.toList

omit [TransOrd κ] in
theorem mem_toList_iff (m : OrderedMap κ α) (k : κ) (v : α) :
    (k, v) ∈ m.toList ↔ m.get? k = some v := by
  obtain ⟨l, h⟩ := m
  simp only [get?]
  induction l with
  | nil => simp [lookup]
  | cons e r ih =>
    obtain ⟨k', w⟩ := e
    obtain ⟨hp, hr⟩ := List.pairwise_cons.mp h
    simp only [List.mem_cons, lookup, Prod.mk.injEq]
    by_cases hk : compare k k' = .eq
    · obtain rfl := Std.LawfulEqCmp.eq_of_compare hk
      have : (k, v) ∉ r := fun he => by simpa using hp _ he
      simp [this, eq_comm]
    · have : k ≠ k' := fun e => hk (e ▸ Std.ReflCmp.compare_self)
      simp [hk, this, ih hr]

/-- Two maps with the same look-ups are the same map. -/
theorem ext_get? {m n : OrderedMap κ α} (h : ∀ k, m.get? k = n.get? k) : m = n := by
  apply ext_toList
  have hmem : ∀ e, e ∈ m.toList ↔ e ∈ n.toList := fun ⟨k, v⟩ => by
    rw [mem_toList_iff, mem_toList_iff, h]
  obtain ⟨l, hl⟩ := m
  obtain ⟨r, hr⟩ := n
  simp only at hmem ⊢
  clear h
  induction l generalizing r with
  | nil =>
    cases r with
    | nil => rfl
    | cons e r => simpa using hmem e
  | cons a l ih =>
    cases r with
    | nil => simpa using hmem a
    | cons b r =>
      obtain ⟨ha, hl'⟩ := List.pairwise_cons.mp hl
      obtain ⟨hb, hr'⟩ := List.pairwise_cons.mp hr
      have irrefl : ∀ x : κ, compare x x ≠ .lt := fun x => by simp
      have hab : a = b := by
        rcases List.mem_cons.mp ((hmem a).mp (by simp)) with h | h
        · exact h
        · rcases List.mem_cons.mp ((hmem b).mpr (by simp)) with h' | h'
          · exact h'.symm
          · exact absurd (Std.TransCmp.lt_trans (hb a h) (ha b h')) (irrefl _)
      subst hab
      refine congrArg (a :: ·) (ih hl' r hr' fun e => ?_)
      constructor
      · intro he
        rcases List.mem_cons.mp ((hmem e).mp (by simp [he])) with rfl | h
        · exact absurd (ha e he) (irrefl _)
        · exact h
      · intro he
        rcases List.mem_cons.mp ((hmem e).mpr (by simp [he])) with rfl | h
        · exact absurd (hb e he) (irrefl _)
        · exact h

end Insert

end OrderedMap

/-! ## Sets -/

/-- A finite set listed in ascending order. -/
abbrev OrderedSet (κ : Type) [Ord κ] := OrderedMap κ Unit

namespace OrderedSet

variable {κ : Type} [Ord κ] [TransOrd κ]

/-- The set of the listed members. -/
def ofList (l : List κ) : OrderedSet κ := OrderedMap.ofList (l.map (·, ()))

/-- Adds one member. -/
def add (s : OrderedSet κ) (k : κ) : OrderedSet κ := s.insert k ()

/-- The members, ascending. -/
def members (s : OrderedSet κ) : List κ := s.keys

end OrderedSet

end AppRegistry
