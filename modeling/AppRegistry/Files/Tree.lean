import AppRegistry.OrderedMap

/-!
# File trees

A file tree maps absolute paths to directories and files. A path is the list of its names, and the
empty path is the root directory, which is always there. The parent of every entry is a directory
(`FileTree.closed`), so the entries below a directory stand together in path order and a directory
comes before what it holds.

A tree also knows the directory that relative paths start from. That directory is held on to by what
it is and not by its path (`Standpoint`): it moves with a directory above it, and when it is removed
the way up from it is still open.

`FileTree.slot` looks a path up name by name and says why it leads nowhere. `FileTree.find` does so
from the written form of the path, whose length is limited. `get?_place` and `get?_remove` say what
placing and removing an entry do to a look-up.
-/

namespace AppRegistry

/-- An absolute path as the list of its names. -/
abbrev Path := List String

namespace Path

/-- The written form of a path. -/
def text (p : Path) : String := "/" ++ "/".intercalate p

/-- The length from which on a written path is refused, in bytes. -/
def limit : Nat := 4096

/-- Whether the written form of a path is short enough. -/
def fits (p : Path) : Bool := p.text.utf8ByteSize < limit

end Path

/-- Why a file call fails. -/
inductive FileError where
  | notFound
  | notADirectory
  | isADirectory
  | alreadyExists
  | notEmpty
  | nameTooLong
  | invalidName
  | intoItself
deriving DecidableEq, Repr

/-- What stands at a path. -/
inductive Entry where
  | directory
  | file (bytes : ByteArray)

instance : DecidableEq Entry
  | .directory, .directory => isTrue rfl
  | .directory, .file _ | .file _, .directory => isFalse nofun
  | .file a, .file b =>
    match ByteArray.instDecidableEq a b with
    | isTrue h => isTrue (congrArg Entry.file h)
    | isFalse h => isFalse fun e => h (Entry.file.inj e)

/-! ## Directories that are held on to -/

/-- A directory that is held on to. It lies `removed` levels below `base`, and the directories on
those levels have been removed since. -/
structure Standpoint where
  base : Path
  removed : Nat
deriving DecidableEq, Repr

namespace Standpoint

/-- The root directory. -/
def root : Standpoint := ⟨[], 0⟩

/-- The path of the directory, unless it has been removed. -/
def path? : Standpoint → Option Path
  | ⟨p, 0⟩ => some p
  | ⟨_, _ + 1⟩ => none

/-- The directory above, which for the root is the root. -/
def up : Standpoint → Standpoint
  | ⟨p, 0⟩ => ⟨p.dropLast, 0⟩
  | ⟨p, n + 1⟩ => ⟨p, n⟩

/-- The same directory once the directory at `p` is removed. -/
def afterRemoval (s : Standpoint) (p : Path) : Standpoint :=
  if s.base = p then ⟨p.dropLast, s.removed + 1⟩ else s

/-- The same directory once the directory at `p` is renamed to `q`. -/
def afterMove (s : Standpoint) (p q : Path) : Standpoint :=
  if p.isPrefixOf s.base then ⟨q ++ s.base.drop p.length, s.removed⟩ else s

end Standpoint

/-! ## The tree -/

/-- Look-up in a map of entries; the root is a directory. -/
def entryIn (m : OrderedMap Path Entry) (p : Path) : Option Entry :=
  if p = [] then some .directory else m.get? p

/-- Directories and files by path, and the working directory. -/
structure FileTree where
  entries : OrderedMap Path Entry
  closed : ∀ p e, entries.get? p = some e →
    p ≠ [] ∧ entryIn entries p.dropLast = some .directory
  /-- Where relative paths start. -/
  working : Standpoint

namespace FileTree

theorem eq_iff {s t : FileTree} : s = t ↔ s.entries = t.entries ∧ s.working = t.working := by
  cases s; cases t; simp

instance : DecidableEq FileTree := fun _ _ => decidable_of_iff _ eq_iff.symm

/-- The tree with nothing but the root, where relative paths start. -/
def empty : FileTree := ⟨∅, by simp, .root⟩

instance : Inhabited FileTree := ⟨empty⟩

/-! ## Looking up -/

/-- The entry at a path. -/
def get? (t : FileTree) (p : Path) : Option Entry := entryIn t.entries p

/-- The longest name that an entry may have, in bytes. -/
def longestName : Nat := 255

/-- Goes down from `here` along `names`, and tells what stands at the end, if the way there leads
through directories. -/
def slotFrom (t : FileTree) (here : Path) : List String → Except FileError (Option Entry)
  | [] => .ok (t.get? here)
  | name :: rest =>
    match t.get? here with
    | none => .error .notFound
    | some (.file _) => .error .notADirectory
    | some .directory =>
      if longestName < name.utf8ByteSize then .error .nameTooLong
      else slotFrom t (here ++ [name]) rest

/-- What stands at a path, if anything can stand there. -/
def slot (t : FileTree) (p : Path) : Except FileError (Option Entry) := slotFrom t [] p

/-- The entry at a path, or why there is none. -/
def require (t : FileTree) (p : Path) : Except FileError Entry :=
  match t.slot p with
  | .error e => .error e
  | .ok none => .error .notFound
  | .ok (some e) => .ok e

/-- Looks a path up by its written form. -/
def find (t : FileTree) (p : Path) : Except FileError Entry :=
  if p.fits then t.require p else .error .nameTooLong

theorem find_of_fits {t : FileTree} {p : Path} (h : p.fits = true) : t.find p = t.require p :=
  if_pos h

/-- Whether a regular file stands at a path. -/
def isFile (t : FileTree) (p : Path) : Bool :=
  match t.find p with
  | .ok (.file _) => true
  | _ => false

/-- Whether a directory stands at a path. -/
def isDirectory (t : FileTree) (p : Path) : Bool :=
  match t.find p with
  | .ok .directory => true
  | _ => false

/-- The bytes of a file. -/
def read (t : FileTree) (p : Path) : Except FileError ByteArray :=
  match t.find p with
  | .error e => .error e
  | .ok .directory => .error .isADirectory
  | .ok (.file bytes) => .ok bytes

/-- Everything strictly below a directory, each entry by its path from there, in path order: a
directory before what it holds, and the entries of one directory by name. -/
def below (t : FileTree) (p : Path) : List (Path × Entry) :=
  t.entries.toList.filterMap fun e =>
    if p.isPrefixOf e.1 && e.1 ≠ p then some (e.1.drop p.length, e.2) else none

/-- Whether nothing stands directly in `p`. -/
def isLeaf (t : FileTree) (p : Path) : Bool := t.entries.keys.all fun q => q.dropLast ≠ p

theorem dropLast_ne_of_isLeaf {t : FileTree} {p q : Path} {e : Entry} (h : t.isLeaf p = true)
    (hq : t.entries.get? q = some e) : q.dropLast ≠ p := by
  have hmem : q ∈ t.entries.keys :=
    List.mem_map.mpr ⟨(q, e), (OrderedMap.mem_toList_iff _ _ _).mpr hq, rfl⟩
  simpa using List.all_eq_true.mp h q hmem

/-! ## Changing a tree -/

/-- Whether `e` can be put at `p`: in a directory, and a file only where nothing is below. -/
def MayPlace (t : FileTree) (p : Path) (e : Entry) : Prop :=
  p ≠ [] ∧ t.get? p.dropLast = some .directory ∧ (e = .directory ∨ t.isLeaf p = true)

instance (t : FileTree) (p : Path) (e : Entry) : Decidable (t.MayPlace p e) := by
  unfold MayPlace; infer_instance

theorem entryIn_insert (m : OrderedMap Path Entry) (p q : Path) (e : Entry) (hp : p ≠ []) :
    entryIn (m.insert p e) q = if p = q then some e else entryIn m q := by
  unfold entryIn
  rw [OrderedMap.get?_insert]
  by_cases hq : q = []
  · subst hq; simp [hp]
  · simp [hq]

/-- Puts an entry at a path, where it can be put. -/
def place (t : FileTree) (p : Path) (e : Entry) : FileTree :=
  if h : t.MayPlace p e then
    { t with
      entries := t.entries.insert p e
      closed := by
        obtain ⟨hp, hparent, hleaf⟩ := h
        intro q f hq
        rw [OrderedMap.get?_insert] at hq
        rw [entryIn_insert _ _ _ _ hp]
        by_cases hpq : p = q
        · subst hpq
          refine ⟨hp, ?_⟩
          split
          · next he =>
            have : p.length = p.length - 1 := by
              have := congrArg List.length he
              simpa using this
            have : p.length ≠ 0 := by simpa using hp
            omega
          · exact hparent
        · rw [if_neg hpq] at hq
          obtain ⟨hne, hdir⟩ := t.closed q f hq
          refine ⟨hne, ?_⟩
          split
          · next he =>
            rcases hleaf with rfl | hleaf
            · rfl
            · exact absurd he.symm (dropLast_ne_of_isLeaf hleaf hq)
          · exact hdir }
  else t

theorem get?_place {t : FileTree} {p : Path} {e : Entry} (h : t.MayPlace p e) (q : Path) :
    (t.place p e).get? q = if p = q then some e else t.get? q := by
  unfold place get?
  rw [dif_pos h]
  exact entryIn_insert _ _ _ _ h.1

/-- Removes the entry at a path, where nothing is below it. -/
def remove (t : FileTree) (p : Path) : FileTree :=
  if h : t.isLeaf p = true then
    { t with
      entries := t.entries.erase p
      closed := by
        intro q f hq
        rw [OrderedMap.get?_erase] at hq
        by_cases hpq : p = q
        · simp [hpq] at hq
        · rw [if_neg hpq] at hq
          obtain ⟨hne, hdir⟩ := t.closed q f hq
          refine ⟨hne, ?_⟩
          have hkeep : p ≠ q.dropLast := fun he => dropLast_ne_of_isLeaf h hq he.symm
          unfold entryIn at hdir ⊢
          simpa [OrderedMap.get?_erase, hkeep] using hdir }
  else t

theorem get?_remove {t : FileTree} {p : Path} (h : t.isLeaf p = true) (q : Path) :
    (t.remove p).get? q = if p = q ∧ q ≠ [] then none else t.get? q := by
  unfold remove get? entryIn
  rw [dif_pos h]
  by_cases hq : q = []
  · simp [hq]
  · simp [hq, OrderedMap.get?_erase]

/-- Removes the entry at a path and everything below it. -/
def removeBelow (t : FileTree) (p : Path) : FileTree :=
  { t with
    entries := t.entries.filter fun q _ => !p.isPrefixOf q
    closed := by
      intro q f hq
      rw [OrderedMap.get?_filter] at hq
      obtain ⟨hq, hpq⟩ := Option.filter_eq_some_iff.mp hq
      obtain ⟨hne, hdir⟩ := t.closed q f hq
      refine ⟨hne, ?_⟩
      unfold entryIn at hdir ⊢
      by_cases hroot : q.dropLast = []
      · simp [hroot]
      · rw [if_neg hroot] at hdir ⊢
        rw [OrderedMap.get?_filter, hdir]
        have : p.isPrefixOf q.dropLast = false := by
          rw [Bool.eq_false_iff]
          intro hp
          have hp := List.isPrefixOf_iff_prefix.mp hp
          have := List.isPrefixOf_iff_prefix.mpr (hp.trans (List.dropLast_prefix q))
          simp [this] at hpq
        simp [Option.filter, this] }

end FileTree

end AppRegistry
