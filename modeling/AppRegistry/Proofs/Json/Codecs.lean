import AppRegistry.Proofs.Json.Sorted

/-!
# Reading records back

A value is written with its fields in the order of their declaration or, where it is stored, with
its fields sorted (`Json.Arrangement`). `LawfulCodec` says of a type that its values are read back
from both forms. Lists and maps of such a type are such types again, and a record is one if its
fields are: its reader finds at each name the value that was written there
(`Json.readFields?_arranged`).

`Json.Tame` bounds the numbers and the nesting of what a type writes, so that a file can hold it.
-/

namespace AppRegistry

open Json (FieldValues)

namespace Json

/-! ## Arrangements -/

/-- The order of the fields of written objects. -/
inductive Arrangement where
  | declared
  | sorted
deriving DecidableEq, Repr

/-- A value with its fields in an order. -/
def arranged (j : Json) : Arrangement → Json
  | .declared => j
  | .sorted => j.sorted

/-- The fields of an object in an order, with their values in that order. -/
def arrangedFields (fields : List (String × Json)) : Arrangement → List (String × Json)
  | .declared => fields
  | .sorted => (OrderedMap.ofList (sortedFields fields)).toList

@[simp] theorem arranged_null (o : Arrangement) : null.arranged o = null := by cases o <;> rfl

@[simp] theorem arranged_bool (b : Bool) (o : Arrangement) : (bool b).arranged o = bool b := by
  cases o <;> rfl

@[simp] theorem arranged_number (n : Number) (o : Arrangement) :
    (number n).arranged o = number n := by
  cases o <;> rfl

@[simp] theorem arranged_string (s : String) (o : Arrangement) :
    (string s).arranged o = string s := by
  cases o <;> rfl

theorem arranged_array (l : List Json) (o : Arrangement) :
    (array l).arranged o = array (l.map (·.arranged o)) := by
  cases o with
  | declared => exact congrArg array (List.map_id' l).symm
  | sorted => exact congrArg array (sortedItems_eq_map l)

theorem arranged_object (l : List (String × Json)) (o : Arrangement) :
    (object l).arranged o = object (arrangedFields l o) := by
  cases o <;> rfl

theorem lookup_map_snd (l : List (String × Json)) (g : Json → Json) (name : String) :
    (l.map fun f => (f.1, g f.2)).lookup name = (l.lookup name).map g := by
  induction l with
  | nil => rfl
  | cons f l ih =>
    obtain ⟨n, j⟩ := f
    rw [List.map_cons, List.lookup_cons, List.lookup_cons, ih]
    cases name == n <;> rfl

theorem lookup_eq_some_of_mem {l : List (String × Json)} (h : (l.map (·.1)).Nodup) {name : String}
    {j : Json} (hj : (name, j) ∈ l) : l.lookup name = some j := by
  induction l with
  | nil => cases hj
  | cons f l ih =>
    obtain ⟨n, i⟩ := f
    obtain ⟨hn, hl⟩ := List.nodup_cons.mp h
    rw [List.lookup_cons]
    rcases List.mem_cons.mp hj with heq | hmem
    · obtain ⟨rfl, rfl⟩ := Prod.mk.inj heq
      simp
    · have hne : name ≠ n := by
        rintro rfl
        exact hn (List.mem_map.mpr ⟨_, hmem, rfl⟩)
      rw [beq_false_of_ne hne]
      exact ih hl hmem

/-- Where no name is repeated, each name has its value in either order. -/
theorem lookup_arrangedFields {l : List (String × Json)} (h : (l.map (·.1)).Nodup) (name : String)
    (o : Arrangement) : (arrangedFields l o).lookup name = (l.lookup name).map (·.arranged o) := by
  cases o with
  | declared => exact Option.map_id'.symm
  | sorted =>
    have hnames : (sortedFields l).map (·.1) = l.map (·.1) := by
      rw [sortedFields_eq_map, List.map_map]
      rfl
    have hget := OrderedMap.get?_ofList (f := fun n => (sortedFields l).lookup n)
      (fun f hf => lookup_eq_some_of_mem (hnames ▸ h) hf) name
    show (OrderedMap.ofList (sortedFields l)).toList.lookup name = _
    rw [OrderedMap.lookup_toList, hget, hnames, sortedFields_eq_map, lookup_map_snd]
    split
    · rfl
    · next hnone =>
      have hl : l.lookup name = none := List.lookup_eq_none_iff.mpr fun f hf =>
        bne_iff_ne.mpr fun hname => hnone (hname ▸ List.mem_map_of_mem hf)
      rw [hl]
      rfl

theorem arranged_ne_null {j : Json} (h : j ≠ null) (o : Arrangement) : j.arranged o ≠ null := by
  cases j with
  | null => exact absurd rfl h
  | array l => simp [arranged_array]
  | object l => simp [arranged_object]
  | bool _ | number _ | string _ => simp

end Json

/-! ## Types that are read back -/

/-- A type whose values are read back from their JSON form, in either order of the fields. -/
class LawfulCodec (α : Type) [Codec α] : Prop where
  decode?_arranged : ∀ (a : α) (o : Json.Arrangement), decode? ((encode a).arranged o) = some a

section Values
variable {α : Type} [Codec α] [LawfulCodec α]

open LawfulCodec (decode?_arranged)

theorem decode?_encode (a : α) : decode? (encode a) = some a := decode?_arranged a .declared

theorem decode?_sorted (a : α) : decode? (encode a).sorted = some a := decode?_arranged a .sorted

/-- A value that is written as another one is read back with it. -/
theorem decode?_wrapped {β : Type} (wrap : α → β) (a : α) (o : Json.Arrangement) :
    (decode? ((encode a).arranged o)).map wrap = some (wrap a) := by
  rw [decode?_arranged, Option.map_some]

instance : LawfulCodec String where
  decode?_arranged s o := congrArg decode? (Json.arranged_string s o)

instance : LawfulCodec Int64 where
  decode?_arranged n o := by
    have hlow := n.le_toInt
    have hhigh := n.toInt_lt
    have hrange : -9223372036854775808 ≤ n.toInt ∧ n.toInt ≤ 9223372036854775807 := by omega
    show decode? ((Json.number (.int n.toInt)).arranged o) = some n
    rw [Json.arranged_number]
    show (decodeInt? _ _ (.number (.int n.toInt))).map Int64.ofInt = some n
    rw [decodeInt?, if_pos hrange, Option.map_some, Int64.ofInt_toInt]

instance : LawfulCodec UInt32 where
  decode?_arranged n o := by
    have hhigh := n.toNat_lt
    have hrange : (0 : Int) ≤ n.toNat ∧ (n.toNat : Int) ≤ 4294967295 := by omega
    show decode? ((Json.number (.int n.toNat)).arranged o) = some n
    rw [Json.arranged_number]
    show (decodeInt? _ _ (.number (.int n.toNat))).map (fun i => UInt32.ofNat i.toNat) = some n
    rw [decodeInt?, if_pos hrange, Option.map_some, Int.toNat_natCast, UInt32.ofNat_toNat]

instance : LawfulCodec (List α) where
  decode?_arranged l o := by
    show decode? ((Json.array (l.map encode)).arranged o) = some l
    rw [Json.arranged_array, List.map_map]
    show (l.map _).mapM decode? = some l
    induction l with
    | nil => rfl
    | cons a l ih => simp [List.mapM_cons, decode?_arranged, ih]

theorem decodeFields?_map (l : List (String × α)) (o : Json.Arrangement) :
    decodeFields? (l.map fun e => (e.1, (encode e.2).arranged o)) = some l := by
  unfold decodeFields?
  induction l with
  | nil => rfl
  | cons e l ih => simp [List.mapM_cons, decode?_arranged, ih]

instance : LawfulCodec (OrderedMap String α) where
  decode?_arranged m o := by
    have hfields : Json.arrangedFields (m.toList.map fun e => (e.1, encode e.2)) o =
        m.toList.map fun e => (e.1, (encode e.2).arranged o) := by
      cases o with
      | declared => rfl
      | sorted =>
        -- The names of a map ascend already.
        show (OrderedMap.ofList (Json.sortedFields (m.mapValues encode).toList)).toList = _
        rw [Json.sortedFields_eq_map]
        show (OrderedMap.ofList ((m.mapValues encode).mapValues Json.sorted).toList).toList = _
        rw [OrderedMap.ofList_toList]
        exact List.map_map
    show decode? ((Json.object (m.toList.map fun e => (e.1, encode e.2))).arranged o) = some m
    rw [Json.arranged_object, hfields]
    show (decodeFields? (m.toList.map _)).map OrderedMap.ofList = some m
    rw [decodeFields?_map, Option.map_some, OrderedMap.ofList_toList]

instance : LawfulCodec (OrderedSet String) where
  decode?_arranged s o := by
    have hmembers : decode? ((encode s.members).arranged o) = some s.members :=
      decode?_arranged s.members o
    have hpairs : s.members.map (·, ()) = s.toList := by
      show (s.toList.map (·.1)).map (·, ()) = s.toList
      rw [List.map_map]
      exact List.map_id' s.toList
    show (decode? ((encode s.members).arranged o)).map OrderedSet.ofList = some s
    rw [hmembers, Option.map_some, OrderedSet.ofList, hpairs, OrderedMap.ofList_toList]

end Values

/-! ## Records -/

namespace Json

/-- The values found in a record are those of some fields, in an order. -/
structure FieldValues.Shows (f : FieldValues) (fields : List (String × Json)) (o : Arrangement) :
    Prop where
  value? : ∀ name, f.value? name = (fields.lookup name).map (·.arranged o)
  listed : f.listed = false

variable {fields : List (String × Json)} {f : FieldValues} {o : Arrangement} {name : String}

/-- The fields of a written record are found again. -/
theorem readFields?_arranged {names : List String} (hnames : fields.map (·.1) = names)
    (hn : names.Nodup) (o : Arrangement) :
    ∃ f, readFields? names ((object fields).arranged o) = some f ∧ f.Shows fields o := by
  have hkeys : ∀ name, name ∈ (arrangedFields fields o).map (·.1) → name ∈ names := by
    intro name hname
    cases o with
    | declared => exact hnames ▸ hname
    | sorted =>
      obtain ⟨e, he, rfl⟩ := List.mem_map.mp hname
      obtain ⟨j, hj, -⟩ := mem_sorted_fields he
      exact hnames ▸ List.mem_map.mpr ⟨_, hj, rfl⟩
  have hnodup : ((arrangedFields fields o).map (·.1)).Nodup := by
    cases o with
    | declared => exact hnames ▸ hn
    | sorted => exact OrderedMap.nodup_keys _
  have hknown : (arrangedFields fields o).filter (fun e => names.contains e.1) =
      arrangedFields fields o :=
    List.filter_eq_self.mpr fun e he =>
      List.contains_iff_mem.mpr (hkeys e.1 (List.mem_map_of_mem he))
  refine ⟨⟨arrangedFields fields o, false⟩, ?_, ?_, rfl⟩
  · rw [arranged_object, readFields?, hknown]
    exact if_pos hnodup
  · exact fun name => lookup_arrangedFields (hnames ▸ hn) name o

/-- What a reader makes of the fields of a written record. -/
theorem bind_readFields? {β : Type} {names : List String} {g : FieldValues → Option β} {b : β}
    (hnames : fields.map (·.1) = names) (hn : names.Nodup)
    (h : ∀ f : FieldValues, f.Shows fields o → g f = some b) :
    (readFields? names ((object fields).arranged o) >>= g) = some b := by
  obtain ⟨f, hf, hshows⟩ := readFields?_arranged hnames hn o
  rw [hf]
  exact h f hshows

section Fields
variable {α : Type} [Codec α] [LawfulCodec α]

theorem FieldValues.Shows.required (h : f.Shows fields o) (a : α)
    (hl : fields.lookup name = some (encode a)) : f.required name = some a := by
  rw [FieldValues.required, h.value?, hl]
  exact LawfulCodec.decode?_arranged a o

theorem FieldValues.Shows.defaulted (h : f.Shows fields o) (a default : α)
    (hl : fields.lookup name = some (encode a)) : f.defaulted name default = some a := by
  rw [FieldValues.defaulted, h.value?, hl]
  exact LawfulCodec.decode?_arranged a o

/-- An absent value is read back too, if no value is written as null. -/
theorem decode?_arranged_option (hnull : ∀ a : α, encode a ≠ null) (a : Option α)
    (o : Arrangement) : decode? ((encode a).arranged o) = some a := by
  cases a with
  | none => cases o <;> rfl
  | some a =>
    have hsome : ∀ j : Json, j ≠ null → (decode? j : Option (Option α)) = (decode? j).map some := by
      intro j hj
      cases j with
      | null => exact absurd rfl hj
      | bool _ | number _ | string _ | array _ | object _ => rfl
    show decode? ((encode a).arranged o) = some (some a)
    rw [hsome _ (arranged_ne_null (hnull a) o), LawfulCodec.decode?_arranged]
    rfl

theorem encode_string_ne_null (s : String) : encode s ≠ null := nofun

theorem encode_int64_ne_null (n : Int64) : encode n ≠ null := nofun

theorem FieldValues.Shows.optional (h : f.Shows fields o) (hnull : ∀ a : α, encode a ≠ null)
    (a : Option α) (hl : fields.lookup name = some (encode a)) : f.optional name = some a := by
  have hdecode := decode?_arranged_option hnull a o
  rw [FieldValues.optional, h.value?, hl, Option.map_some]
  generalize (encode a).arranged o = j at hdecode
  cases j <;> exact hdecode

theorem FieldValues.Shows.optionalDefaulted (h : f.Shows fields o)
    (hnull : ∀ a : α, encode a ≠ null) (a : Option α)
    (hl : fields.lookup name = some (encode a)) : f.optionalDefaulted name = some a := by
  have hdecode := decode?_arranged_option hnull a o
  rw [FieldValues.optionalDefaulted, h.value?, hl, Option.map_some]
  generalize (encode a).arranged o = j at hdecode
  cases j <;> exact hdecode

end Fields

/-! ## Numbers and nesting -/

/-- A value whose numbers are integers of 64 bits and whose brackets nest up to a depth. -/
def Tame (n : Nat) (j : Json) : Prop := j.HasWords ∧ j.depth ≤ n

theorem Tame.mono {j : Json} {m n : Nat} (h : j.Tame m) (hmn : m ≤ n) : j.Tame n :=
  ⟨h.1, Nat.le_trans h.2 hmn⟩

theorem Tame.sorted {j : Json} {n : Nat} (h : j.Tame n) : j.sorted.Tame n :=
  ⟨h.1.sorted, Nat.le_trans (depth_sorted_le j) h.2⟩

theorem tame_null (n : Nat) : null.Tame n := ⟨trivial, Nat.zero_le n⟩

theorem tame_string (s : String) (n : Nat) : (string s).Tame n := ⟨trivial, Nat.zero_le n⟩

theorem tame_array {l : List Json} {n : Nat} (h : ∀ j ∈ l, j.Tame n) : (array l).Tame (n + 1) :=
  ⟨itemsHaveWords_iff.mpr fun j hj => (h j hj).1,
    Nat.succ_le_succ (itemsDepth_le_iff.mpr fun j hj => (h j hj).2)⟩

theorem tame_object {l : List (String × Json)} {n : Nat} (h : ∀ f ∈ l, f.2.Tame n) :
    (object l).Tame (n + 1) :=
  ⟨fieldsHaveWords_iff.mpr fun f hf => (h f hf).1,
    Nat.succ_le_succ (fieldsDepth_le_iff.mpr fun f hf => (h f hf).2)⟩

theorem tame_object_nil (n : Nat) : (object []).Tame (n + 1) := tame_object fun _ h => nomatch h

theorem Tame.field {name : String} {j : Json} {l : List (String × Json)} {n : Nat}
    (h : j.Tame n) (hl : (object l).Tame (n + 1)) : (object ((name, j) :: l)).Tame (n + 1) :=
  ⟨⟨h.1, hl.1⟩, Nat.succ_le_succ (Nat.max_le.mpr ⟨h.2, Nat.le_of_succ_le_succ hl.2⟩)⟩

theorem tame_encode_int64 (a : Int64) (n : Nat) : (encode a).Tame n := by
  have hlow := a.le_toInt
  have hhigh := a.toInt_lt
  refine ⟨⟨by omega, ?_⟩, Nat.zero_le n⟩
  rw [Token.wordLimit]
  omega

theorem tame_encode_uint32 (a : UInt32) (n : Nat) : (encode a).Tame n := by
  have hhigh := a.toNat_lt
  refine ⟨⟨by omega, ?_⟩, Nat.zero_le n⟩
  rw [Token.wordLimit]
  omega

section Containers
variable {α : Type} [Codec α] {n : Nat}

theorem tame_encode_option (h : ∀ a : α, (encode a).Tame n) (a : Option α) : (encode a).Tame n := by
  cases a with
  | none => exact tame_null n
  | some a => exact h a

theorem tame_encode_list (h : ∀ a : α, (encode a).Tame n) (l : List α) :
    (encode l).Tame (n + 1) :=
  tame_array fun j hj => by
    obtain ⟨a, -, rfl⟩ := List.mem_map.mp hj
    exact h a

theorem tame_encode_map (h : ∀ a : α, (encode a).Tame n) (m : OrderedMap String α) :
    (encode m).Tame (n + 1) :=
  tame_object fun f hf => by
    obtain ⟨e, -, rfl⟩ := List.mem_map.mp hf
    exact h e.2

end Containers

theorem tame_encode_set (s : OrderedSet String) : (encode s).Tame 1 :=
  tame_encode_list (fun a => tame_string a 0) s.members

end Json

end AppRegistry
