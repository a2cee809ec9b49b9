import AppRegistry.Files.Call
import Mathlib.Data.List.Induction

/-!
# File trees by look-up

What stands where (`FileTree.get?`) is the view of a file tree. This module says in terms of that
view when a path leads somewhere and what lies below a directory.

A path leads to an entry exactly when its written form and its names are short enough
(`Path.InLimits`) and something stands there: `find_eq_ok_iff`. All that lies below a directory is
listed, each entry once: `mem_below_iff` and `pairwise_below`.
-/

namespace AppRegistry

/-- Whether no name of a path is too long. -/
def Path.HasShortNames (p : Path) : Prop := ∀ name ∈ p, name.utf8ByteSize ≤ FileTree.longestName

/-- Whether the written form of a path and all its names are short enough. -/
def Path.InLimits (p : Path) : Prop := p.fits = true ∧ p.HasShortNames

namespace Path

/-! ## Limits -/

theorem size_text_append {p q : Path} (hq : q ≠ []) :
    p.text.utf8ByteSize ≤ (text (p ++ q)).utf8ByteSize ∧
      (text (p ++ q)).utf8ByteSize =
        (text q).utf8ByteSize + if p = [] then 0 else p.text.utf8ByteSize := by
  unfold text
  by_cases hp : p = []
  · subst hp
    simp [String.utf8ByteSize_append]
  · rw [String.intercalate_append_of_ne_nil hp hq]
    simp only [String.utf8ByteSize_append, if_neg hp]
    omega

/-- The written form of a parent is no longer. -/
theorem fits_of_append {p q : Path} (h : fits (p ++ q) = true) : p.fits = true := by
  by_cases hq : q = []
  · simpa [hq] using h
  · have hlt : (text (p ++ q)).utf8ByteSize < limit := by simpa [fits] using h
    have := (size_text_append (p := p) hq).1
    simpa [fits] using Nat.lt_of_le_of_lt this hlt

/-- A path in the limits has its parents in them. -/
theorem InLimits.of_append {p q : Path} (h : InLimits (p ++ q)) : p.InLimits :=
  ⟨fits_of_append h.1, fun n hn => h.2 n (List.mem_append_left q hn)⟩

/-- A path in the limits stays in them when its last name is replaced by one that is no longer. -/
theorem InLimits.of_last {p : Path} {name name' : String} (h : InLimits (p ++ [name]))
    (hle : name'.utf8ByteSize ≤ name.utf8ByteSize) : InLimits (p ++ [name']) := by
  have hsize := fun n => (size_text_append (p := p) (q := [n]) (List.cons_ne_nil n [])).2
  have htext : ∀ n : String,
      (text [n]).utf8ByteSize = "/".utf8ByteSize + n.utf8ByteSize := fun n => by
    rw [text, String.intercalate_singleton, String.utf8ByteSize_append]
  refine ⟨?_, fun n hn => ?_⟩
  · have hlt : (text (p ++ [name])).utf8ByteSize < limit := by simpa [fits] using h.1
    rw [hsize, htext] at hlt
    have : (text (p ++ [name'])).utf8ByteSize < limit := by rw [hsize, htext]; omega
    simpa [fits] using this
  · rcases List.mem_append.mp hn with hn | hn
    · exact h.2 n (List.mem_append_left _ hn)
    · obtain rfl := List.mem_singleton.mp hn
      exact Nat.le_trans hle (h.2 name (by simp))

end Path

namespace FileTree

variable {t t' : FileTree} {p q : Path} {e : Entry} {b : ByteArray}

/-! ## What stands where -/

theorem get?_nil (t : FileTree) : t.get? [] = some .directory := rfl

theorem ne_nil_of_get?_ne (h : t.get? p ≠ some .directory) : p ≠ [] :=
  fun hp => h (hp ▸ t.get?_nil)

theorem get?_dropLast (h : t.get? p = some e) (hp : p ≠ []) :
    t.get? p.dropLast = some .directory := by
  unfold get? entryIn at h
  rw [if_neg hp] at h
  exact (t.closed p e h).2

/-- Whatever has something below it is a directory. -/
theorem get?_of_append (h : t.get? (p ++ q) = some e) (hq : q ≠ []) :
    t.get? p = some .directory := by
  induction q using List.reverseRecOn generalizing e with
  | nil => exact absurd rfl hq
  | append_singleton q x ih =>
    have hd : t.get? (p ++ q) = some .directory := by
      have := get?_dropLast h (by simp)
      rwa [← List.append_assoc, List.dropLast_concat] at this
    by_cases hq' : q = []
    · simpa [hq'] using hd
    · exact ih hd hq'

/-- The way to a directory leads through directories. -/
theorem get?_directory_above (h : t.get? p = some .directory) (hq : q <+: p) :
    t.get? q = some .directory := by
  obtain ⟨rest, rfl⟩ := hq
  by_cases hrest : rest = []
  · rwa [hrest, List.append_nil] at h
  · exact get?_of_append h hrest

/-- On the way to a directory there are no files. -/
theorem not_file_of_prefix (h : t.get? p = some .directory) (hq : q <+: p) (b : ByteArray) :
    t.get? q ≠ some (.file b) := by
  rw [get?_directory_above h hq]
  exact nofun

theorem get?_append_eq_none (h : t.get? p ≠ some .directory) (hq : q ≠ []) :
    t.get? (p ++ q) = none := by
  cases he : t.get? (p ++ q) with
  | none => rfl
  | some e => exact absurd (get?_of_append he hq) h

theorem isLeaf_iff : t.isLeaf p = true ↔ ∀ name, t.get? (p ++ [name]) = none := by
  constructor
  · intro h name
    cases he : t.get? (p ++ [name]) with
    | none => rfl
    | some e =>
      unfold get? entryIn at he
      rw [if_neg (by simp)] at he
      exact absurd (List.dropLast_concat) (dropLast_ne_of_isLeaf h he)
  · intro h
    apply List.all_eq_true.mpr
    intro q hq
    obtain ⟨⟨q', e⟩, he, rfl⟩ := List.mem_map.mp hq
    have he := (OrderedMap.mem_toList_iff _ _ _).mp he
    have hne : q' ≠ [] := (t.closed q' e he).1
    simp only [decide_eq_true_eq]
    rintro rfl
    have := h (q'.getLast hne)
    rw [List.dropLast_concat_getLast hne] at this
    unfold get? entryIn at this
    rw [if_neg hne, he] at this
    cases this

theorem isLeaf_of_not_directory (h : t.get? p ≠ some .directory) : t.isLeaf p = true :=
  isLeaf_iff.mpr fun _ => get?_append_eq_none h (by simp)

/-! ## Following a path -/

theorem hasShortNames_nil : Path.HasShortNames [] := fun _ hx => absurd hx List.not_mem_nil

theorem hasShortNames_cons {name : String} :
    Path.HasShortNames (name :: p) ↔ name.utf8ByteSize ≤ longestName ∧ p.HasShortNames :=
  List.forall_mem_cons

/-- A path goes on from where something stands on its way. -/
theorem slotFrom_append (here : Path) (h : t.get? (here ++ p) = some e) :
    (p.HasShortNames → t.slotFrom here (p ++ q) = t.slotFrom (here ++ p) q) ∧
      (¬ p.HasShortNames → t.slotFrom here (p ++ q) = .error .nameTooLong) := by
  induction p generalizing here with
  | nil => exact ⟨fun _ => by simp, fun hn => absurd hasShortNames_nil hn⟩
  | cons name p ih =>
    have hd : t.get? here = some .directory := get?_of_append h (by simp)
    have ih := ih (here ++ [name]) (by simpa using h)
    simp only [List.cons_append, slotFrom, hd, hasShortNames_cons]
    by_cases hname : longestName < name.utf8ByteSize
    · rw [if_pos hname]
      exact ⟨fun hs => absurd hs.1 (by omega), fun _ => rfl⟩
    · rw [if_neg hname, and_iff_right (Nat.le_of_not_lt hname)]
      simpa using ih

/-- Where something stands, a path fails only for its length. -/
theorem require_of_get? (h : t.get? p = some e) :
    (p.HasShortNames → t.require p = .ok e) ∧
      (¬ p.HasShortNames → t.require p = .error .nameTooLong) := by
  have hslot := slotFrom_append (q := []) [] h
  rw [List.append_nil] at hslot
  unfold require slot
  refine ⟨fun hs => ?_, fun hs => by rw [hslot.2 hs]⟩
  rw [hslot.1 hs, slotFrom, List.nil_append, h]

theorem slotFrom_eq_ok (here : Path) {rest : Path} {x : Option Entry}
    (h : t.slotFrom here rest = .ok x) :
    Path.HasShortNames rest ∧ x = t.get? (here ++ rest) ∧
      (rest ≠ [] → t.get? (here ++ rest.dropLast) = some .directory) := by
  induction rest generalizing here with
  | nil =>
    rw [slotFrom, Except.ok.injEq] at h
    exact ⟨hasShortNames_nil, by simp [h], fun hn => absurd rfl hn⟩
  | cons name rest ih =>
    simp only [slotFrom] at h
    split at h
    · cases h
    · cases h
    · next hd =>
      split at h
      · cases h
      · next hname =>
        obtain ⟨hs, hx, hlast⟩ := ih _ h
        refine ⟨hasShortNames_cons.mpr ⟨by omega, hs⟩, by simpa using hx, fun _ => ?_⟩
        cases rest with
        | nil => simpa using hd
        | cons n r => simpa using hlast (by simp)

theorem slot_eq_ok_iff {x : Option Entry} : t.slot p = .ok x ↔
    p.HasShortNames ∧ x = t.get? p ∧ (p ≠ [] → t.get? p.dropLast = some .directory) := by
  constructor
  · exact fun h => slotFrom_eq_ok [] h
  · rintro ⟨hs, rfl, hd⟩
    by_cases hp : p = []
    · subst hp; rfl
    · have hd := hd hp
      -- The way leads to the parent, which is a directory; one more step is left.
      obtain ⟨q, name, rfl⟩ : ∃ q name, p = q ++ [name] :=
        ⟨p.dropLast, p.getLast hp, (List.dropLast_concat_getLast hp).symm⟩
      rw [List.dropLast_concat] at hd
      have hname := hs name (by simp)
      rw [slot, (slotFrom_append [] hd).1 fun n hn => hs n (List.mem_append_left _ hn),
        List.nil_append]
      simp only [slotFrom, hd]
      rw [if_neg (by omega)]

theorem require_eq_ok_iff : t.require p = .ok e ↔ p.HasShortNames ∧ t.get? p = some e := by
  constructor
  · intro h
    unfold require at h
    split at h
    · cases h
    · cases h
    · next e' hs =>
      obtain ⟨hn, hx, -⟩ := slot_eq_ok_iff.mp hs
      exact ⟨hn, by rw [← hx, Except.ok.inj h]⟩
  · exact fun ⟨hs, h⟩ => (require_of_get? h).1 hs

theorem find_eq_ok_iff : t.find p = .ok e ↔ p.InLimits ∧ t.get? p = some e := by
  unfold find Path.InLimits
  split
  · next h => rw [require_eq_ok_iff, and_iff_right h]
  · next h => simp [h]

/-- Where the same stands in two trees, a path is followed in the same way. -/
theorem find_congr (h : t.get? p = some e) (h' : t'.get? p = some e) : t.find p = t'.find p := by
  obtain ⟨h₁, h₂⟩ := require_of_get? h
  obtain ⟨h₁', h₂'⟩ := require_of_get? h'
  have : t.require p = t'.require p := by
    by_cases hs : p.HasShortNames
    · rw [h₁ hs, h₁' hs]
    · rw [h₂ hs, h₂' hs]
  rw [find, find, this]

/-- Where nothing stands and no file is in the way, nothing is wrong with a path. -/
theorem slot_of_free (hs : p.HasShortNames) (hnone : t.get? p = none)
    (hfree : ∀ q, q <+: p → ∀ b, t.get? q ≠ some (.file b)) :
    t.slot p = .ok none ∨ t.slot p = .error .notFound := by
  -- The way is walked name by name from any directory on it.
  have hslot : ∀ (rest here : Path), Path.HasShortNames rest → t.get? (here ++ rest) = none →
      (∀ q, q <+: here ++ rest → ∀ b, t.get? q ≠ some (.file b)) →
      t.slotFrom here rest = .ok none ∨ t.slotFrom here rest = .error .notFound := by
    intro rest
    induction rest with
    | nil => exact fun here _ hn _ => .inl (congrArg Except.ok (by simpa using hn))
    | cons name rest ih =>
      intro here hs hn hf
      cases hh : t.get? here with
      | none => exact .inr (by simp only [slotFrom, hh])
      | some e =>
        cases e with
        | file b => exact absurd hh (hf here (List.prefix_append _ _) b)
        | directory =>
          have hname := hs name List.mem_cons_self
          simp only [slotFrom, hh]
          rw [if_neg (by omega)]
          exact ih (here ++ [name]) (fun x hx => hs x (List.mem_cons_of_mem _ hx))
            (by simpa using hn) (by simpa using hf)
  exact hslot p [] hs hnone hfree

theorem find_eq_notFound (hp : p.InLimits) (hnone : t.get? p = none)
    (hfree : ∀ q, q <+: p → ∀ b, t.get? q ≠ some (.file b)) : t.find p = .error .notFound := by
  rw [find_of_fits hp.1, require]
  rcases slot_of_free hp.2 hnone hfree with h | h <;> rw [h]

/-- Where nothing is found in a directory, nothing stands there. -/
theorem of_find_eq_notFound {name : String} (hp : t.get? p = some .directory)
    (h : t.find (p ++ [name]) = .error .notFound) :
    Path.InLimits (p ++ [name]) ∧ t.get? (p ++ [name]) = none := by
  unfold find at h
  split at h
  · next hfits =>
    -- A name of the directory that is too long would have been met first, with another error.
    obtain ⟨hshort, hlong⟩ := slotFrom_append (q := [name]) [] hp
    by_cases hs : p.HasShortNames
    · simp only [require, slot, hshort hs, List.nil_append, slotFrom, hp] at h
      split at h
      · next hslot =>
        split at hslot
        · obtain rfl := Except.error.inj hslot
          cases h
        · cases hslot
      · next hslot =>
        split at hslot
        · cases hslot
        · next hname =>
          refine ⟨⟨hfits, fun n hn => ?_⟩, Except.ok.inj hslot⟩
          rcases List.mem_append.mp hn with hn | hn
          · exact hs n hn
          · rw [List.mem_singleton.mp hn]
            omega
      · cases h
    · simp only [require, slot, hlong hs] at h
      cases h
  · cases h

/-- Where a file is in the way, nothing is found. -/
theorem find_eq_notADirectory (hp : p.InLimits) (hq : q <+: p) (hne : q ≠ p)
    (hfile : t.get? q = some (.file b)) : t.find p = .error .notADirectory := by
  have hqn : q ≠ [] := by
    rintro rfl
    cases hfile
  have hd := get?_dropLast hfile hqn
  obtain ⟨r, name, rfl⟩ : ∃ r name, q = r ++ [name] :=
    ⟨q.dropLast, q.getLast hqn, (List.dropLast_concat_getLast hqn).symm⟩
  rw [List.dropLast_concat] at hd
  obtain ⟨rest, rfl⟩ := hq
  have hname := hp.2 name (by simp)
  have hshort : Path.HasShortNames r := fun n hn => hp.2 n (by simp [hn])
  have hslot : t.slotFrom r (name :: rest) = .error .notADirectory := by
    cases rest with
    | nil => exact absurd (List.append_nil _).symm hne
    | cons n rest =>
      simp only [slotFrom, hd]
      rw [if_neg (by omega), hfile]
  rw [find_of_fits hp.1, List.append_assoc, require, slot,
    (slotFrom_append [] hd).1 hshort, List.nil_append, List.singleton_append, hslot]

theorem isFile_iff : t.isFile p = true ↔ p.InLimits ∧ ∃ b, t.get? p = some (.file b) := by
  unfold isFile
  constructor
  · intro h
    split at h
    · next b hf => exact ⟨(find_eq_ok_iff.mp hf).1, b, (find_eq_ok_iff.mp hf).2⟩
    · cases h
  · rintro ⟨hp, b, hb⟩
    rw [find_eq_ok_iff.mpr ⟨hp, hb⟩]

theorem isDirectory_iff : t.isDirectory p = true ↔ p.InLimits ∧ t.get? p = some .directory := by
  unfold isDirectory
  constructor
  · intro h
    split at h
    · next hf => exact find_eq_ok_iff.mp hf
    · cases h
  · intro h
    rw [find_eq_ok_iff.mpr h]

theorem read_eq_ok_iff : t.read p = .ok b ↔ p.InLimits ∧ t.get? p = some (.file b) := by
  unfold read
  constructor
  · intro h
    split at h
    · cases h
    · cases h
    · next b' hf =>
      obtain rfl := Except.ok.inj h
      exact find_eq_ok_iff.mp hf
  · intro h
    rw [find_eq_ok_iff.mpr h]

/-! ## Everything below a directory -/

theorem mem_entries_iff : (p, e) ∈ t.entries.toList ↔ p ≠ [] ∧ t.get? p = some e := by
  rw [OrderedMap.mem_toList_iff]
  unfold get? entryIn
  constructor
  · intro h
    have hp := (t.closed p e h).1
    exact ⟨hp, by rwa [if_neg hp]⟩
  · rintro ⟨hp, h⟩
    rwa [if_neg hp] at h

/-- The entry of `below` that an entry of the tree gives. -/
def fromBelow (p : Path) (e : Path × Entry) : Option (Path × Entry) :=
  if p.isPrefixOf e.1 && e.1 ≠ p then some (e.1.drop p.length, e.2) else none

/-- There is a longest path in a tree. -/
theorem exists_length_le (t : FileTree) : ∃ N, ∀ p e, t.get? p = some e → p.length ≤ N := by
  refine ⟨(t.entries.toList.map (·.1.length)).max?.getD 0, fun p e hp => ?_⟩
  by_cases hnil : p = []
  · simp [hnil]
  · have hmem := mem_entries_iff.mpr ⟨hnil, hp⟩
    exact List.le_max?_getD_of_mem (List.mem_map_of_mem (f := (·.1.length)) hmem)

theorem below_eq (t : FileTree) (p : Path) : t.below p = t.entries.toList.filterMap (fromBelow p) :=
  rfl

theorem fromBelow_eq_some_iff {x : Path × Entry} :
    fromBelow p x = some (q, e) ↔ q ≠ [] ∧ x = (p ++ q, e) := by
  obtain ⟨r, f⟩ := x
  unfold fromBelow
  simp only [Bool.and_eq_true, List.isPrefixOf_iff_prefix, decide_eq_true_eq]
  constructor
  · intro h
    split at h
    · next hp =>
      obtain ⟨⟨s, rfl⟩, hne⟩ := hp
      rw [List.drop_left, Option.some.injEq, Prod.mk.injEq] at h
      obtain ⟨rfl, rfl⟩ := h
      exact ⟨fun hs => hne (by rw [hs, List.append_nil]), rfl⟩
    · cases h
  · rintro ⟨hq, hx⟩
    obtain ⟨rfl, rfl⟩ := Prod.mk.inj hx
    rw [if_pos ⟨List.prefix_append _ _, by simpa using hq⟩, List.drop_left]

theorem mem_below_iff : (q, e) ∈ t.below p ↔ q ≠ [] ∧ t.get? (p ++ q) = some e := by
  rw [below_eq, List.mem_filterMap]
  constructor
  · rintro ⟨x, hx, h⟩
    obtain ⟨hq, rfl⟩ := fromBelow_eq_some_iff.mp h
    exact ⟨hq, (mem_entries_iff.mp hx).2⟩
  · rintro ⟨hq, h⟩
    exact ⟨(p ++ q, e), mem_entries_iff.mpr ⟨by simp [hq], h⟩, fromBelow_eq_some_iff.mpr ⟨hq, rfl⟩⟩

theorem pairwise_below (t : FileTree) (p : Path) :
    (t.below p).Pairwise fun a b => a.1 ≠ b.1 := by
  rw [below_eq, List.pairwise_filterMap]
  refine t.entries.ascending.imp fun {x y} hxy a ha b hb hab => ?_
  obtain ⟨-, rfl⟩ := fromBelow_eq_some_iff.mp ha
  obtain ⟨-, rfl⟩ := fromBelow_eq_some_iff.mp hb
  rw [hab] at hxy
  exact absurd hxy (by simp)

end FileTree

end AppRegistry
