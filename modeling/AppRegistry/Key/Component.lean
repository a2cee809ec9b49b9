import AppRegistry.Text.Control

/-!
# Key components

A component names one level of the storage hierarchy and also one directory on disk, so a few
names are refused. `Component.fault?` finds what is wrong with a name; `fault?_eq_none_iff` states
that a name passes exactly when it `IsValid`.
-/

namespace AppRegistry.Component

/-- Why a name cannot be a key component. -/
inductive Fault where
  | empty
  | leadingDot
  | forbidden (c : Char)
deriving DecidableEq, Repr

/-- The wording of a fault. -/
def Fault.message : Fault → String
  | .empty => "empty component"
  | .leadingDot => "must not start with '.'"
  | .forbidden c => s!"invalid character {Text.quotedChar c}"

/-- Separators and control characters, which no component holds. -/
def isForbidden (c : Char) : Bool := c = '/' || c = '\\' || Text.isControl c

/-- A component is not empty, does not start with a dot, and holds no separator and no control
character. -/
def IsValid (s : String) : Prop :=
  s.toList ≠ [] ∧ s.toList.head? ≠ some '.' ∧ ∀ c ∈ s.toList, isForbidden c = false

/-- The first thing wrong with a name: emptiness, then a leading dot, then the first forbidden
character. -/
def fault? (s : String) : Option Fault :=
  if s.toList = [] then some .empty
  else if s.toList.head? = some '.' then some .leadingDot
  else (s.toList.find? isForbidden).map .forbidden

theorem fault?_eq_none_iff {s : String} : fault? s = none ↔ IsValid s := by
  unfold fault? IsValid
  by_cases h : s.toList = []
  · simp [h]
  · by_cases hd : s.toList.head? = some '.'
    · simp [h, hd]
    · simp [h, hd, List.find?_eq_none]

instance (s : String) : Decidable (IsValid s) :=
  decidable_of_iff (fault? s = none) fault?_eq_none_iff

end AppRegistry.Component
