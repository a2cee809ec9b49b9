import AppRegistry.Json.Decimal
import AppRegistry.OrderedMap

/-!
# JSON values

An object is a list of fields in the order in which they were written, possibly with a name more
than once, so that a reader of records can tell a repeated field from a single one. A stored value
is in sorted form (`Json.sorted`): the fields of every object ascend by name, and of fields with one
name the last stays.
-/

namespace AppRegistry

namespace Json

/-- An integer of 64 bits, signed or unsigned, or any other number. -/
inductive Number where
  | int (n : Int)
  | real (d : Decimal)
deriving DecidableEq, Repr

end Json

/-- A JSON value. -/
inductive Json where
  | null
  | bool (b : Bool)
  | number (n : Json.Number)
  | string (s : String)
  | array (items : List Json)
  | object (fields : List (String × Json))
deriving Repr

namespace Json

instance : Inhabited Json := ⟨null⟩

/-! ## Equality -/

mutual

/-- Equality of values. -/
def beq : Json → Json → Bool
  | null, null => true
  | bool a, bool b => a == b
  | number a, number b => a == b
  | string a, string b => a == b
  | array a, array b => beqItems a b
  | object a, object b => beqFields a b
  | _, _ => false

/-- Equality of items, one by one. -/
def beqItems : List Json → List Json → Bool
  | [], [] => true
  | a :: r, b :: s => beq a b && beqItems r s
  | _, _ => false

/-- Equality of fields, one by one. -/
def beqFields : List (String × Json) → List (String × Json) → Bool
  | [], [] => true
  | (m, a) :: r, (n, b) :: s => m == n && beq a b && beqFields r s
  | _, _ => false

end

mutual

theorem beq_iff : ∀ a b : Json, beq a b = true ↔ a = b
  | null, b => by cases b <;> simp [beq]
  | bool _, b => by cases b <;> simp [beq]
  | number _, b => by cases b <;> simp [beq]
  | string _, b => by cases b <;> simp [beq]
  | array x, b => by cases b <;> simp [beq, beqItems_iff x]
  | object x, b => by cases b <;> simp [beq, beqFields_iff x]

theorem beqItems_iff : ∀ a b : List Json, beqItems a b = true ↔ a = b
  | [], b => by cases b <;> simp [beqItems]
  | x :: r, b => by cases b <;> simp [beqItems, beq_iff x, beqItems_iff r]

theorem beqFields_iff : ∀ a b : List (String × Json), beqFields a b = true ↔ a = b
  | [], b => by cases b <;> simp [beqFields]
  | (m, x) :: r, b => by
    cases b with
    | nil => simp [beqFields]
    | cons e s => obtain ⟨n, y⟩ := e; simp [beqFields, beq_iff x, beqFields_iff r]

end

instance : DecidableEq Json := fun a b =>
  if h : beq a b = true then isTrue ((beq_iff a b).mp h)
  else isFalse fun e => h ((beq_iff a b).mpr e)

/-! ## Sorted form -/

mutual

/-- The value with the fields of every object ascending by name; of fields with one name the last
stays. -/
def sorted : Json → Json
  | array items => array (sortedItems items)
  | object fields => object (OrderedMap.ofList (sortedFields fields)).toList
  | j => j

/-- Items in sorted form. -/
def sortedItems : List Json → List Json
  | [] => []
  | j :: r => sorted j :: sortedItems r

/-- Fields with their values in sorted form. -/
def sortedFields : List (String × Json) → List (String × Json)
  | [] => []
  | (name, j) :: r => (name, sorted j) :: sortedFields r

end

/-! ## Short forms -/

/-- An integer as a value. -/
def ofInt (n : Int) : Json := number (.int n)

/-- The value under a name, if the value is an object with such a field. -/
def field? (j : Json) (name : String) : Option Json :=
  match j with
  | object fields => (fields.find? (·.1 == name)).map (·.2)
  | _ => none

end Json

end AppRegistry
