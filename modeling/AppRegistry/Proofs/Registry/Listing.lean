import AppRegistry.Proofs.Registry.Confinement
import Mathlib.Data.Set.List

/-!
# Questions that list a range

Some questions read no single record but list those of a range: as values of a type, or as the names
under a key. Such a question is answered from the map that a store holds, whatever room the store
has.

Main results: `Registry.Holds.answers_fetchRange` for values, and `Registry.Holds.answers_names` for
names.
-/

namespace AppRegistry

open RegistryTransaction

variable {m : OrderedMap Key Json} {k l : Key} {t : FileTree} {α β σ : Type} {L : Loader σ}
  {g : Registry σ} {P : Key → Prop} {V : Json → Prop}

/-! ## Where a transaction stays -/

theorem Transaction.staysIn_bind {ε : Type} {tx : Transaction ε α} {f : α → Transaction ε β}
    (h : tx.StaysIn P V m) (hf : ∀ a m', tx.runOn m = (.done a, m') → (f a).StaysIn P V m') :
    (tx >>= f).StaysIn P V m := by
  show (tx.bind f).StaysIn P V m
  induction tx generalizing m with
  | done a => exact hf a m rfl
  | reject | panic => trivial
  | read k next ih => exact ⟨h.1, ih _ h.2 hf⟩
  | scan r next ih => exact ih _ h hf
  | write k v next ih => exact ⟨h.1, h.2.1, ih h.2.2 hf⟩
  | delete k next ih => exact ⟨h.1, ih _ h.2 hf⟩

theorem staysIn_fetch [Codec α] (hk : P k) : (fetch α k).StaysIn P V m := by
  refine ⟨hk, ?_⟩
  cases m.get? k with
  | none => trivial
  | some v =>
    show (demand (pure ((Transaction.decodeRecord α k v).map some))).StaysIn P V m
    cases Transaction.decodeRecord α k v <;> trivial

/-! ## Values -/

section Values
variable [Codec β] {range : KeyRange} {found : List (Key × β)}

/-- Records that are all stored values of a type make up a list of values. -/
theorem exists_eq_map_stored {l : List (Key × Json)} (h : ∀ e ∈ l, ∃ b : β, e.2 = stored b) :
    ∃ found : List (Key × β), l = found.map fun e => (e.1, stored e.2) := by
  have hrange : l ∈ {l | ∀ e ∈ l, e ∈ Set.range fun e : Key × β => (e.1, stored e.2)} := by
    intro e he
    obtain ⟨b, hb⟩ := h e he
    exact ⟨(e.1, b), Prod.ext rfl hb.symm⟩
  rw [← Set.range_list_map] at hrange
  obtain ⟨found, hfound⟩ := hrange
  exact ⟨found, hfound.symm⟩

variable [LawfulCodec β]

theorem decodeRecords_stored (found : List (Key × β)) :
    Transaction.decodeRecords β (found.map fun e => (e.1, stored e.2)) = .ok found := by
  induction found with
  | nil => rfl
  | cons e found ih =>
    rw [List.map_cons, Transaction.decodeRecords, Transaction.decodeRecord, decode?_stored, ih]
    rfl

section Listed
variable (hfound : Transaction.recordsIn m range = found.map fun e => (e.1, stored e.2))
  (f : List (Key × β) → α)
include hfound

theorem runOn_fetchRange :
    (do return f (← fetchRange β range) : RegistryTransaction α).runOn m = (.done (f found), m) := by
  show Transaction.runOn (.scan range _) m = _
  rw [Transaction.runOn, hfound]
  show Transaction.runOn (demand (pure (Transaction.decodeRecords β _)) >>= _) m = _
  rw [decodeRecords_stored]
  rfl

theorem staysIn_fetchRange :
    (do return f (← fetchRange β range) : RegistryTransaction α).StaysIn P V m := by
  show Transaction.StaysIn P V (.scan range _) m
  rw [Transaction.StaysIn, hfound]
  show Transaction.StaysIn P V (demand (pure (Transaction.decodeRecords β _)) >>= _) m
  rw [decodeRecords_stored]
  trivial

end Listed

/-- **A question that only lists the records of a range is answered from the map**, whatever room
the store has. -/
theorem Registry.Holds.answers_fetchRange (h : g.Holds m t) {now : Instant} {op : Operation}
    {reply : α → Reply} {f : List (Key × β) → α}
    (hop : op.request now = .ask reply (do return f (← fetchRange β range)))
    (hfound : Transaction.recordsIn m range = found.map fun e => (e.1, stored e.2)) :
    ((perform L g now op).run t).1.1 = .reply (reply (f found)) :=
  h.answers hop (runOn_fetchRange hfound f) (staysIn_fetchRange hfound f)

end Values

/-! ## Names -/

theorem OrderedSet.get?_ofList (names : List String) (name : String) :
    (OrderedSet.ofList names).get? name = if name ∈ names then some () else none := by
  rw [OrderedSet.ofList, OrderedMap.get?_ofList (f := fun _ => some ()) fun _ _ => rfl, List.map_map]
  simp

/-- Sets with the same members are the same. -/
theorem OrderedSet.ofList_congr {names names' : List String}
    (h : ∀ name, name ∈ names ↔ name ∈ names') : OrderedSet.ofList names = .ofList names' := by
  refine OrderedMap.ext_get? fun name => ?_
  simp only [OrderedSet.get?_ofList, h]

theorem OrderedSet.mem_members_ofList (names : List String) (name : String) :
    name ∈ (OrderedSet.ofList names).members ↔ name ∈ names := by
  show name ∈ (OrderedSet.ofList names).toList.map (·.1) ↔ _
  simp [OrderedMap.mem_keys_iff, OrderedSet.get?_ofList]

theorem nameBelow_eq_some_iff {base : Key} {name : String} :
    nameBelow base k = some name ↔ k.components = base.components ++ [name] := by
  unfold nameBelow
  cases hbelow : k.below? base with
  | none =>
    refine ⟨nofun, fun h => absurd ?_ (KeyRange.below?_eq_none_iff.mp hbelow)⟩
    exact h ▸ List.prefix_append _ _
  | some rest =>
    rw [Key.below?_eq_some_iff.mp hbelow, List.append_cancel_left_eq]
    obtain ⟨_ | ⟨c, _ | ⟨d, l⟩⟩, hvalid⟩ := rest <;> simp

/-- The names that follow an account in the keys of a keyspace. -/
def namesIn (s : Keyspace) (a : AccountId) (m : OrderedMap Key Json) : List String :=
  match Layout.ofAccount s a with
  | .error _ => []
  | .ok base => (Transaction.recordsIn m (.all base)).filterMap fun e => nameBelow base e.1

variable {s : Keyspace} {a : AccountId}

/-- A name is in use just if there is a record at its key. -/
theorem mem_namesIn_iff {name : String} : name ∈ namesIn s a m ↔
    ∃ k, Layout.ofApplication s (a.application name) = .ok k ∧ (m.get? k).isSome := by
  have hspells := Layout.spells_ofApplication s (a.application name)
  unfold namesIn
  cases hbase : Layout.ofAccount s a with
  | error e =>
    refine ⟨nofun, fun ⟨k, hk, _⟩ => ?_⟩
    obtain ⟨base, hok⟩ := Layout.ofAccount_isOk_of_holds (hspells.holds hk List.prefix_rfl) s
    cases hbase.symm.trans hok
  | ok base =>
    have hcomponents := (Layout.spells_ofAccount s a base).mp hbase
    have hkey : ∀ k, nameBelow base k = some name ↔
        Layout.ofApplication s (a.application name) = .ok k := fun k => by
      rw [nameBelow_eq_some_iff, hcomponents, hspells k]
      rfl
    simp only [List.mem_filterMap, hkey]
    constructor
    · rintro ⟨e, he, hk⟩
      have hget := (OrderedMap.mem_toList_iff m e.1 e.2).mp (List.mem_filter.mp he).1
      exact ⟨e.1, hk, by rw [hget]; rfl⟩
    · rintro ⟨k, hk, hsome⟩
      obtain ⟨v, hv⟩ := Option.isSome_iff_exists.mp hsome
      refine ⟨(k, v), List.mem_filter.mpr ⟨(OrderedMap.mem_toList_iff m k v).mpr hv, ?_⟩, hk⟩
      rw [Transaction.contains_all]
      exact Layout.isBelow_of_holds hbase (hspells.holds hk List.prefix_rfl)

/-- The names in use ascend, as their keys do. -/
theorem namesIn_ascending : (namesIn s a m).Pairwise (· < ·) := by
  unfold namesIn
  cases Layout.ofAccount s a with
  | error e => exact .nil
  | ok base =>
    refine List.pairwise_filterMap.mpr ((m.ascending.sublist List.filter_sublist).imp ?_)
    intro e e' hlt name hname name' hname'
    rw [Key.compare_eq, nameBelow_eq_some_iff.mp hname, nameBelow_eq_some_iff.mp hname',
      compare_append_left, List.compare_cons_cons] at hlt
    cases hcompare : compare name name' with
    | lt => exact compare_eq_lt_iff_lt.mp hcompare
    | eq =>
      rw [hcompare] at hlt
      cases hlt
    | gt =>
      rw [hcompare] at hlt
      cases hlt

theorem runOn_namesUnder (s : Keyspace) (a : AccountId) (m : OrderedMap Key Json) :
    (Application.namesUnder (Layout.ofAccount s a)).runOn m =
      (.done (.ofList (namesIn s a m)), m) := by
  unfold namesIn
  cases Layout.ofAccount s a with
  | error e => rfl
  | ok base => rfl

theorem staysIn_namesUnder (x : Except KeyError Key) :
    (Application.namesUnder x).StaysIn P V m := by
  cases x with
  | error e => trivial
  | ok base => trivial

/-- **A question for the names in use is answered from the map**, whatever room the store has. -/
theorem Registry.Holds.answers_names (h : g.Holds m t) {now : Instant} {op : Operation}
    (hop : op.request now = .ask .names (Application.namesUnder (Layout.ofAccount s a))) :
    ((perform L g now op).run t).1.1 = .reply (.names (.ofList (namesIn s a m))) :=
  h.answers hop (runOn_namesUnder s a m) (staysIn_namesUnder _)

end AppRegistry
