import AppRegistry.Key.Component

/-!
# Keys

A key is a list of valid components. Keys are compared component by component, so all keys below
one key stand together in key order, and they are written with `/` between the components.

`Key.ofComponents` reports the first component that is not valid, and `Key.parse` drops empty
parts before it looks.
-/

namespace AppRegistry

/-- A component that cannot stand in a key, with its position. -/
structure KeyError where
  component : String
  position : Nat
  fault : Component.Fault
deriving DecidableEq, Repr

/-- The wording of a key error. -/
def KeyError.message (e : KeyError) : String :=
  s!"invalid key component '{e.component}' at position {e.position}: {e.fault.message}"

/-- A hierarchical key. -/
structure Key where
  components : List String
  valid : ∀ c ∈ components, Component.IsValid c
deriving DecidableEq, Repr

namespace Key

theorem ext {k l : Key} (h : k.components = l.components) : k = l := by
  cases k; cases l; cases h; rfl

/-! ## Order -/

instance : Ord Key := ⟨fun k l => compare k.components l.components⟩

theorem compare_eq (k l : Key) : compare k l = compare k.components l.components := rfl

instance : Std.TransOrd Key where
  eq_swap {k l} := by rw [compare_eq, compare_eq]; exact Std.OrientedCmp.eq_swap
  isLE_trans {k l m} h h' := by rw [compare_eq] at *; exact Std.TransCmp.isLE_trans h h'

instance : Std.LawfulEqOrd Key where
  compare_self {k} := by rw [compare_eq]; exact Std.ReflCmp.compare_self
  eq_of_compare h := ext (Std.LawfulEqCmp.eq_of_compare h)

/-! ## Building keys -/

/-- The key without components, which starts every key. -/
def root : Key := ⟨[], by simp⟩

/-- The first component at fault, counting positions from `i`. -/
def firstFault (i : Nat) : List String → Option KeyError
  | [] => none
  | c :: r =>
    match Component.fault? c with
    | some f => some ⟨c, i, f⟩
    | none => firstFault (i + 1) r

theorem firstFault_eq_none_iff {i : Nat} {l : List String} :
    firstFault i l = none ↔ ∀ c ∈ l, Component.IsValid c := by
  induction l generalizing i with
  | nil => simp [firstFault]
  | cons c r ih =>
    simp only [firstFault, List.forall_mem_cons, ← Component.fault?_eq_none_iff]
    split <;> simp_all [Component.fault?_eq_none_iff]

/-- The key with these components, if each is valid. -/
def ofComponents (l : List String) : Except KeyError Key :=
  match h : firstFault 0 l with
  | none => .ok ⟨l, firstFault_eq_none_iff.mp h⟩
  | some e => .error e

/-- The parts of a text between slashes, without the empty ones. -/
def parts (s : String) : List String :=
  ((s.toList.splitOn '/').filter (· ≠ [])).map String.ofList

/-- Reads a key written with slashes; empty parts are dropped. -/
def parse (s : String) : Except KeyError Key := ofComponents (parts s)

/-- The key one level below `k`. -/
def child (k : Key) (c : String) : Except KeyError Key :=
  match h : Component.fault? c with
  | some f => .error ⟨c, k.components.length, f⟩
  | none => .ok ⟨k.components ++ [c], by
      simpa [or_imp, forall_and] using ⟨k.valid, Component.fault?_eq_none_iff.mp h⟩⟩

/-- The components of `k` and then those of `l`. -/
def join (k l : Key) : Key :=
  ⟨k.components ++ l.components, fun c hc =>
    (List.mem_append.mp hc).elim (k.valid c) (l.valid c)⟩

/-! ## Taking keys apart -/

/-- The number of components. -/
def length (k : Key) : Nat := k.components.length

/-- Whether `k` is `base` or lies below it. -/
def isBelow (k base : Key) : Bool := base.components.isPrefixOf k.components

/-- What of `k` follows `base`, if `k` is `base` or lies below it. -/
def below? (k base : Key) : Option Key :=
  if k.isBelow base then
    some ⟨k.components.drop base.length, fun c hc => k.valid c (List.mem_of_mem_drop hc)⟩
  else none

/-- Components written with slashes between them. -/
def display (components : List String) : String := "/".intercalate components

/-- The written form of a key. -/
def text (k : Key) : String := display k.components

instance : ToString Key := ⟨text⟩

end Key

end AppRegistry
