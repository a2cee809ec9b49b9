import AppRegistry.Json.Basic
import AppRegistry.Key.Basic

/-!
# Records as JSON

`Codec` gives a type its JSON form. A record is written as an object with all its fields in the
order of declaration. It is read from an object, where unknown fields are ignored and a known field
must not be repeated, or from a list of the field values in order (`Json.readFields?`). A field is
then required, defaulted or optional.
-/

namespace AppRegistry

/-- A type with a JSON form. -/
class Codec (α : Type) where
  encode : α → Json
  decode? : Json → Option α

export Codec (encode decode?)

namespace Json

/-! ## Fields of a record -/

/-- The values found for the declared fields of a record, by name. In the list form a value may
be missing only where its field has a default. -/
structure FieldValues where
  found : List (String × Json)
  listed : Bool
deriving DecidableEq, Repr

/-- Finds the values of the declared fields. -/
def readFields? (names : List String) : Json → Option FieldValues
  | object fields =>
    let known := fields.filter fun f => names.contains f.1
    if (known.map (·.1)).Nodup then some ⟨known, false⟩ else none
  | array items => if items.length ≤ names.length then some ⟨names.zip items, true⟩ else none
  | _ => none

namespace FieldValues

variable {α : Type} [Codec α]

/-- The value found for a field. -/
def value? (f : FieldValues) (name : String) : Option Json := f.found.lookup name

/-- A field that must be there. -/
def required (f : FieldValues) (name : String) : Option α := f.value? name >>= decode?

/-- A field that has a value of its own when it is missing. -/
def defaulted (f : FieldValues) (name : String) (default : α) : Option α :=
  match f.value? name with
  | none => some default
  | some j => decode? j

/-- A field that may be missing from an object or be null. -/
def optional (f : FieldValues) (name : String) : Option (Option α) :=
  match f.value? name with
  | none => if f.listed then none else some none
  | some null => some none
  | some j => (decode? j).map some

/-- A field that may be missing from either form or be null. -/
def optionalDefaulted (f : FieldValues) (name : String) : Option (Option α) :=
  match f.value? name with
  | none | some null => some none
  | some j => (decode? j).map some

end FieldValues

end Json

/-! ## Plain values -/

instance : Codec Json := ⟨id, some⟩

instance : Codec String where
  encode := .string
  decode?
    | .string s => some s
    | _ => none

instance : Codec Bool where
  encode := .bool
  decode?
    | .bool b => some b
    | _ => none

/-- An integer that lies in a range. -/
def decodeInt? (low high : Int) : Json → Option Int
  | .number (.int n) => if low ≤ n ∧ n ≤ high then some n else none
  | _ => none

instance : Codec Int64 where
  encode n := .ofInt n.toInt
  decode? j := (decodeInt? (-9223372036854775808) 9223372036854775807 j).map Int64.ofInt

instance : Codec UInt32 where
  encode n := .ofInt n.toNat
  decode? j := (decodeInt? 0 4294967295 j).map fun n => UInt32.ofNat n.toNat

section Containers
variable {α : Type} [Codec α]

/-- An absent value is written as null. -/
instance : Codec (Option α) where
  encode
    | none => .null
    | some a => encode a
  decode?
    | .null => some none
    | j => (decode? j).map some

instance : Codec (List α) where
  encode l := .array (l.map encode)
  decode?
    | .array items => items.mapM decode?
    | _ => none

/-- Decodes each value of a list of fields. -/
def decodeFields? (fields : List (String × Json)) : Option (List (String × α)) :=
  fields.mapM fun f => (decode? f.2).map (f.1, ·)

instance : Codec (OrderedMap String α) where
  encode m := .object (m.toList.map fun e => (e.1, encode e.2))
  decode?
    | .object fields => (decodeFields? fields).map OrderedMap.ofList
    | _ => none

end Containers

/-- A set is written as the list of its members. -/
instance : Codec (OrderedSet String) where
  encode s := encode s.members
  decode? j := (decode? (α := List String) j).map OrderedSet.ofList

/-- A key is written as its text and checked when it is read. -/
instance : Codec Key where
  encode k := .string k.text
  decode?
    | .string s => (Key.parse s).toOption
    | _ => none

end AppRegistry
