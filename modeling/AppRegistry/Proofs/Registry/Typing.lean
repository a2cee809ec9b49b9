import AppRegistry.Proofs.Registry.Listing

/-!
# Well-typed records

Each keyspace has one shape of keys and one type of records (`Keyspace.Typed`), and a record is
well typed if it is of some keyspace (`WellTyped`). One record of another type would make every scan
over it fail, so it counts what every transaction writes.

`Sound` is a program logic for that. A sound transaction goes only to keys that it may go to, and as
long as it finds well-typed records it writes well-typed ones and ends with a result or an error of
those that it may end with.

Main results: `Sound.runOn`, for the records and the end of a run, and `Sound.staysIn`, for the keys
it goes to.
-/

namespace AppRegistry

variable {k l : Key} {v : Json} {m : OrderedMap Key Json} {α β : Type}

/-! ## Types of records -/

/-- Whether a key has the shape of a keyspace and a value reads as a record of it. The records of
the catalog say the name and those of runs the start time and the run that their keys end with. -/
def Keyspace.Typed (k : Key) (v : Json) : Keyspace → Prop
  | applications => ∃ id, ∃ r : ApplicationRecord,
    Layout.application id = .ok k ∧ decode? v = some r
  | streams => ∃ a, ∃ d : StreamDeclaration, Layout.stream a d.name = .ok k ∧ decode? v = some d
  | datasets => ∃ a, ∃ d : DatasetDeclaration, Layout.dataset a d.name = .ok k ∧ decode? v = some d
  | runs => ∃ p, ∃ x : RunRecord, Layout.run p x.start x.run = .ok k ∧ decode? v = some x
  | runIndex => ∃ p r, ∃ time : Int64, Layout.runIndex p r = .ok k ∧ decode? v = some time
  | arguments => ∃ p, ∃ args : RunArguments, Layout.arguments p = .ok k ∧ decode? v = some args

/-- Whether a key has the shape of some keyspace and a value reads as a record of it. -/
def WellTyped (k : Key) (v : Json) : Prop := ∃ s : Keyspace, s.Typed k v

theorem Keyspace.Typed.holds {s : Keyspace} (h : s.Typed k v) : ∃ a, s.Holds a k := by
  cases s with
  | applications =>
    obtain ⟨id, r, hk, -⟩ := h
    exact ⟨id.account, Layout.holds_application hk⟩
  | streams =>
    obtain ⟨a, d, hk, -⟩ := h
    exact ⟨a, (Layout.spells_stream a d.name).holds hk List.prefix_rfl⟩
  | datasets =>
    obtain ⟨a, d, hk, -⟩ := h
    exact ⟨a, (Layout.spells_dataset a d.name).holds hk List.prefix_rfl⟩
  | runs =>
    obtain ⟨p, x, hk, -⟩ := h
    exact ⟨p.account, Layout.holds_run hk⟩
  | runIndex =>
    obtain ⟨p, r, time, hk, -⟩ := h
    exact ⟨p.account, Layout.holds_runIndex hk⟩
  | arguments =>
    obtain ⟨p, args, hk, -⟩ := h
    exact ⟨p.account, (Layout.spells_ofProgram .arguments p).holds hk List.prefix_rfl⟩

/-- **A well-typed record is of the keyspace that its key lies in.** -/
theorem WellTyped.typed {s : Keyspace} {a : AccountId} (h : WellTyped k v) (hk : s.Holds a k) :
    s.Typed k v := by
  obtain ⟨s', h⟩ := h
  obtain ⟨a', hk'⟩ := h.holds
  rwa [(hk.unique hk').1]

/-- A well-typed record at a key that a transaction may go to, in a form that a file can hold. -/
structure Admissible (P : Key → Prop) (k : Key) (v : Json) : Prop where
  place : P k
  typed : WellTyped k v
  storable : Disk.Storable v

/-- Whether all records of a map are admissible. -/
def AllAdmissible (P : Key → Prop) (m : OrderedMap Key Json) : Prop :=
  ∀ k v, m.get? k = some v → Admissible P k v

section Maps
variable {P : Key → Prop}

theorem allAdmissible_empty : AllAdmissible P ∅ := fun k v h => by simp at h

theorem AllAdmissible.storable (h : AllAdmissible P m) : AllStorable m :=
  fun k v hv => (h k v hv).storable

theorem AllAdmissible.insert (h : AllAdmissible P m) (hv : Admissible P k v) :
    AllAdmissible P (m.insert k v) := by
  intro l w hw
  rw [OrderedMap.get?_insert] at hw
  split at hw
  · next hkl => exact hkl ▸ Option.some.inj hw ▸ hv
  · exact h l w hw

theorem AllAdmissible.erase (h : AllAdmissible P m) (k : Key) : AllAdmissible P (m.erase k) := by
  intro l w hw
  rw [OrderedMap.get?_erase] at hw
  split at hw
  · cases hw
  · exact h l w hw

end Maps

/-! ## Sound transactions -/

/-- Transactions that go only to keys in `P`, write well-typed records as long as they find such
records, and end with a result in `R` or an error in `E`. What a step that fails leads to is left
open: no step fails where there is room. -/
inductive Sound (P : Key → Prop) (E : RegistryError → Prop) (R : α → Prop) :
    RegistryTransaction α → Prop
  | done {a} (h : R a) : Sound P E R (.done a)
  | reject {e} (h : E e) : Sound P E R (.reject e)
  | read {k next} (hk : P k) (hnone : Sound P E R (next (.ok none)))
      (hsome : ∀ v, Admissible P k v → Sound P E R (next (.ok (some v)))) :
      Sound P E R (.read k next)
  | scan {r next} (h : ∀ found : List (Key × Json),
        (∀ e ∈ found, r.contains e.1 = true ∧ Admissible P e.1 e.2) →
        Sound P E R (next (.ok found))) :
      Sound P E R (.scan r next)
  | write {k v next} (hv : Admissible P k v) (h : Sound P E R next) : Sound P E R (.write k v next)
  | delete {k next} (hk : P k) (h : ∀ b, Sound P E R (next (.ok b))) : Sound P E R (.delete k next)

/-- Whether a run ends with a result in `R` or an error in `E`. -/
def Outcome.Within {ε : Type} (E : ε → Prop) (R : α → Prop) : Outcome ε α → Prop
  | .done a => R a
  | .rejected e => E e
  | .panicked => False

namespace Sound

variable {P : Key → Prop} {E : RegistryError → Prop} {R : α → Prop} {S : β → Prop}
  {t : RegistryTransaction α}

theorem pure {a : α} (h : R a) : Sound P E R (Pure.pure a) := .done h

theorem bind {f : α → RegistryTransaction β} (h : Sound P E R t)
    (hf : ∀ a, R a → Sound P E S (f a)) : Sound P E S (t >>= f) := by
  induction h with
  | done ha => exact hf _ ha
  | reject he => exact .reject he
  | read hk _ _ hnone hsome => exact .read hk hnone hsome
  | scan _ ih => exact .scan ih
  | write hv _ ih => exact .write hv ih
  | delete hk _ ih => exact .delete hk ih

theorem mono {R' : α → Prop} (h : Sound P E R t) (hR : ∀ a, R a → R' a) : Sound P E R' t := by
  induction h with
  | done ha => exact .done (hR _ ha)
  | reject he => exact .reject he
  | read hk _ _ hnone hsome => exact .read hk hnone hsome
  | scan _ ih => exact .scan ih
  | write hv _ ih => exact .write hv ih
  | delete hk _ ih => exact .delete hk ih

/-- **A sound transaction keeps all records admissible**, and it ends as it may. -/
theorem runOn (h : Sound P E R t) (hm : AllAdmissible P m) :
    (t.runOn m).1.Within E R ∧ AllAdmissible P (t.runOn m).2 := by
  induction h generalizing m with
  | done ha => exact ⟨ha, hm⟩
  | reject he => exact ⟨he, hm⟩
  | @read k next hk _ _ hnone hsome =>
    rw [Transaction.runOn]
    cases hv : m.get? k with
    | none => exact hnone hm
    | some v => exact hsome v (hm k v hv) hm
  | scan _ ih =>
    refine ih _ (fun e he => ?_) hm
    obtain ⟨hmem, hr⟩ := List.mem_filter.mp he
    exact ⟨hr, hm e.1 e.2 ((OrderedMap.mem_toList_iff m e.1 e.2).mp hmem)⟩
  | write hv _ ih => exact ih (hm.insert hv)
  | delete hk _ ih => exact ih _ (hm.erase _)

/-- **A sound transaction stays where it may go.** -/
theorem staysIn (h : Sound P E R t) (hm : AllAdmissible P m) : t.StaysIn P Disk.Storable m := by
  induction h generalizing m with
  | done | reject => trivial
  | @read k next hk _ _ hnone hsome =>
    refine ⟨hk, ?_⟩
    cases hv : m.get? k with
    | none => exact hnone hm
    | some v => exact hsome v (hm k v hv) hm
  | scan _ ih =>
    refine ih _ (fun e he => ?_) hm
    obtain ⟨hmem, hr⟩ := List.mem_filter.mp he
    exact ⟨hr, hm e.1 e.2 ((OrderedMap.mem_toList_iff m e.1 e.2).mp hmem)⟩
  | write hv _ ih => exact ⟨hv.place, hv.storable, ih (hm.insert hv)⟩
  | delete hk _ ih => exact ⟨hk, ih _ (hm.erase _)⟩

end Sound

/-! ## Steps of the registry -/

section Steps
open RegistryTransaction

variable {P : Key → Prop} {E : RegistryError → Prop} {R : α → Prop} {r : KeyRange}

theorem sound_demandKey {x : Except KeyError Key} (h : ∀ e, x = .error e → E (.storage (.key e))) :
    Sound P E (fun k => x = .ok k) (demandKey x) := by
  cases x with
  | error e => exact .reject (h e rfl)
  | ok k => exact .pure rfl

theorem sound_readAt (hk : P k) :
    Sound P E (fun _ => True) (demand (Transaction.readAt k)) :=
  .read hk (.pure trivial) fun _ _ => .pure trivial

theorem sound_scanOver : Sound P E (fun found : List (Key × Json) =>
    ∀ e ∈ found, r.contains e.1 = true ∧ Admissible P e.1 e.2) (demand (Transaction.scanOver r)) :=
  .scan fun _ hfound => .pure hfound

section Typed
variable [Codec β] {Q : β → Prop}

theorem sound_fetch (hk : P k)
    (htyped : ∀ v, WellTyped k v → ∃ b : β, decode? v = some b ∧ Q b) :
    Sound P E (fun x => ∀ b, x = some b → Q b) (fetch β k) := by
  refine .read hk (.pure nofun) fun v hv => ?_
  obtain ⟨b, hb, hQ⟩ := htyped v hv.typed
  show Sound P E _ (demand (pure ((Transaction.decodeRecord β k v).map some)))
  rw [Transaction.decodeRecord, hb]
  refine .pure fun b' hb' => ?_
  obtain rfl := Option.some.inj hb'
  exact hQ

/-- A record at a key of a keyspace is read as one of that keyspace. -/
theorem sound_fetch_of_holds {s : Keyspace} {a : AccountId} (hk : P k) (hholds : s.Holds a k)
    (htyped : ∀ v, s.Typed k v → ∃ b : β, decode? v = some b) :
    Sound P E (fun _ => True) (fetch β k) := by
  refine (sound_fetch (Q := fun _ => True) hk fun v hv => ?_).mono fun _ _ => trivial
  obtain ⟨b, hb⟩ := htyped v (hv.typed hholds)
  exact ⟨b, hb, trivial⟩

theorem decodeRecords_isOk {found : List (Key × Json)}
    (h : ∀ e ∈ found, ∃ b : β, decode? e.2 = some b) :
    ∃ values, Transaction.decodeRecords β found = .ok values := by
  induction found with
  | nil => exact ⟨[], rfl⟩
  | cons e found ih =>
    obtain ⟨b, hb⟩ := h e List.mem_cons_self
    obtain ⟨values, hvalues⟩ := ih fun e he => h e (List.mem_cons_of_mem _ he)
    refine ⟨(e.1, b) :: values, ?_⟩
    rw [Transaction.decodeRecords, Transaction.decodeRecord, hb, hvalues]
    rfl

theorem sound_fetchRange
    (htyped : ∀ k v, r.contains k = true → WellTyped k v → ∃ b : β, decode? v = some b) :
    Sound P E (fun _ => True) (fetchRange β r) := by
  refine .scan fun found hfound => ?_
  obtain ⟨values, hvalues⟩ := decodeRecords_isOk fun e he =>
    htyped e.1 e.2 (hfound e he).1 (hfound e he).2.typed
  show Sound P E _ (demand (pure (Transaction.decodeRecords β found)))
  rw [hvalues]
  exact .pure trivial

theorem sound_put {b : β} (h : Admissible P k (stored b)) :
    Sound P E (fun _ => True) (put k b) :=
  .write h (.pure trivial)

end Typed

theorem sound_deleteAt (hk : P k) :
    Sound P E (fun _ => True) (demand (Transaction.deleteAt k)) :=
  .delete hk fun _ => .pure trivial

theorem sound_deleteEach {keys : List Key} (h : ∀ k ∈ keys, P k) {n : Nat} :
    Sound P E (fun _ => True) (demand do
      match ← Transaction.deleteEach keys with
      | .error e => pure (.error e)
      | .ok () => pure (.ok n)) := by
  induction keys with
  | nil => exact .pure trivial
  | cons k keys ih =>
    exact .delete (h k List.mem_cons_self) fun _ => ih fun k hk => h k (List.mem_cons_of_mem _ hk)

/-- What is removed below a key was found there, so it may be gone to. -/
theorem sound_deleteBelow :
    Sound P E (fun _ => True) (demand (Transaction.deleteBelow k)) := by
  refine .scan fun found hfound => sound_deleteEach fun l hl => ?_
  obtain ⟨e, he, rfl⟩ := List.mem_map.mp hl
  exact (hfound e he).2.place

theorem sound_forM {γ : Type} {list : List γ} {f : γ → RegistryTransaction Unit}
    (h : ∀ a ∈ list, Sound P E (fun _ => True) (f a)) :
    Sound P E (fun _ => True) (list.forM f) := by
  induction list with
  | nil => exact .pure trivial
  | cons a list ih =>
    exact (h a List.mem_cons_self).bind fun _ _ => ih fun a ha => h a (List.mem_cons_of_mem _ ha)

end Steps

end AppRegistry
