import AppRegistry.Proofs.Disk.Shape

/-!
# Walks of a range

The records of a range are listed in three ways. Records in memory and staged changes are walked in
key order, from the start of the range to the first key past it. Files are walked in path order,
where a directory below the base is entered only if the bounds admit its name, and sorted at the
end.

**Theorem (`range_walks_agree`).** Whatever its base and its bounds are, each of these walks lists
exactly the records that the range contains, in key order.

A walk in key order neither begins too late nor stops too early, because the keys below one base lie
next to each other (`KeyRange.walk_eq_filter`). A walk of files leaves out no record of the range,
because such a record lies at the base or below an admitted directory (`mem_visited_of_contains`).
-/

namespace AppRegistry.Disk

variable {root : Path} {t : FileTree} {m : OrderedMap Key Json} {r : KeyRange}

/-- The tree of a store holds its records in every range where they can be read back. -/
theorem Image.holdsIn (h : Image root m t)
    (hback : ∀ k v, r.contains k = true → m.get? k = some v → ReadsBack v) :
    HoldsIn root r (contents root t) m where
  of_key d := fun ⟨b, hb⟩ => by
    obtain ⟨k, _, -, rfl, -⟩ := h.of_record hb
    exact ⟨k, rfl⟩
  sound k b hr hb := by
    obtain ⟨k', v, hv, hk, hfile⟩ := h.of_record hb
    obtain rfl := Key.ext hk
    obtain rfl := Entry.file.inj hfile
    obtain ⟨j, hj, hjv⟩ := hback k v hr hv
    exact ⟨v, j, hv, h.inLimits k v hv, hj, hjv⟩
  complete k v _ hv := ⟨recordBytes v, (contents_of_hidden (by decide)).trans (h.get?_record hv)⟩

/-- The records of a range ascend by their keys. -/
theorem pairwise_recordsIn (m : OrderedMap Key Json) (r : KeyRange) :
    (Transaction.recordsIn m r).Pairwise fun d e => compare d.1 e.1 = .lt :=
  m.ascending.sublist List.filter_sublist

theorem mem_recordsIn_iff {k : Key} {v : Json} :
    (k, v) ∈ Transaction.recordsIn m r ↔ m.get? k = some v ∧ r.contains k = true := by
  rw [Transaction.recordsIn, List.mem_filter, OrderedMap.mem_toList_iff]

/-- **All walks of a range agree with the plain filter.** Take any range; its bounds need not be
components, nor the lower one be below the upper one. The walk of a map in key order keeps what the
range contains. So the records in memory are listed, and so are staged changes, which makes a scan
of an overlay the scan of the records with the changes made. Files that hold the records of a map in
the range are listed as the records of the map, and so are the files that commits have made, if the
records of the range can be read back. In each case, what is listed ascends by key and is what stands
in the map at the keys that the range contains. -/
theorem range_walks_agree (r : KeyRange) :
    (∀ {α : Type} (m : OrderedMap Key α),
      r.walk m.toList = m.toList.filter fun e => r.contains e.1) ∧
    (∀ m, (Snapshot.ofMap m).range r = .ok (Transaction.recordsIn m r)) ∧
    (∀ (o : Overlay) m, o.base.range r = .ok (Transaction.recordsIn m r) →
      o.scan r = .ok (Transaction.recordsIn (Changes.applyAll m o.staged.toList) r)) ∧
    (∀ root t m, HoldsIn root r (contents root t) m →
      (snapshot root t).range r = .ok (Transaction.recordsIn m r)) ∧
    (∀ d t m, Evolves d t m →
      (∀ k v, r.contains k = true → m.get? k = some v → ReadsBack v) →
      (snapshot d.root t).range r = .ok (Transaction.recordsIn m r)) ∧
    ∀ m, ((Transaction.recordsIn m r).Pairwise fun d e => compare d.1 e.1 = .lt) ∧
      ∀ k v, (k, v) ∈ Transaction.recordsIn m r ↔ m.get? k = some v ∧ r.contains k = true := by
  refine ⟨fun m => r.walk_eq_filter m.ascending, fun m => ?_, fun o m h => ?_, fun root t m h => ?_,
    fun d t m h hback => ?_, fun m => ⟨pairwise_recordsIn m r, fun k v => mem_recordsIn_iff⟩⟩
  · exact (Snapshot.shows_ofMap m).range r
  · exact Overlay.scan_of_range h
  · exact h.recordsIn
  · exact ((image_of_evolves h).holdsIn hback).recordsIn

/-! ### Bounds that are not components -/

/-- The records of `nestedTree`. -/
def nested : OrderedMap Key Json :=
  .ofList [(.root, .bool true), (childKey, .null), (grandchildKey, .null)]

theorem evolves_nestedTree : Evolves ⟨["data"], false⟩ nestedTree nested := by
  have hopened : Evolves ⟨["data"], false⟩ storeTree ∅ :=
    .opened (w := "/data") rfl (fun _ => get?_below_storeTree) rfl
  have hwrite : (transact ⟨["data"], false⟩ writeNested).run storeTree =
      ((.committed (), ⟨["data"], false⟩), nestedTree) := Prod.ext rfl rfl
  exact hopened.transact hwrite nofun

theorem readsBack_nested {k : Key} {v : Json} (h : nested.get? k = some v) : ReadsBack v := by
  have hmem : (k, v) ∈ [(.root, .bool true), (childKey, .null), (grandchildKey, .null)] :=
    (OrderedMap.mem_toList_iff nested k v).mpr h
  simp only [List.mem_cons, Prod.mk.injEq, List.not_mem_nil, or_false] at hmem
  rcases hmem with ⟨-, rfl⟩ | ⟨-, rfl⟩ | ⟨-, rfl⟩ <;>
    exact Storable.readsBack ⟨rfl, trivial, by decide⟩

/-- Below the root key, the names from the empty one to one that no component can have. -/
def aroundChild : KeyRange := .between .root "" "a/"

theorem range_walks_agree_aroundChild :
    Evolves ⟨["data"], false⟩ nestedTree nested ∧
    HoldsIn ["data"] aroundChild (contents ["data"] nestedTree) nested ∧
    (snapshot ["data"] nestedTree).range aroundChild =
      .ok [(childKey, .null), (grandchildKey, .null)] ∧
    Overlay.scan ⟨snapshot ["data"] nestedTree, .ofList [(childKey, none)]⟩ aroundChild =
      .ok [(grandchildKey, .null)] := by
  have hback : ∀ k v, aroundChild.contains k = true → nested.get? k = some v → ReadsBack v :=
    fun _ _ _ => readsBack_nested
  have hholds := (image_of_evolves evolves_nestedTree).holdsIn hback
  obtain ⟨-, -, hoverlay, hfiles, hcommitted, -⟩ := range_walks_agree aroundChild
  have hrange := hcommitted _ _ _ evolves_nestedTree hback
  refine ⟨evolves_nestedTree, hholds, (hfiles _ _ _ hholds).trans ?_,
    (hoverlay ⟨_, _⟩ nested hrange).trans ?_⟩
  · decide +kernel
  · decide +kernel

end AppRegistry.Disk
