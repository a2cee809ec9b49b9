import AppRegistry.Proofs.Disk.Land
import AppRegistry.Proofs.Records.View
import Mathlib.Data.List.Basic

/-!
# The records of a file tree

What a transaction sees of a file tree are its record files and nothing else: `recordsIn_congr` and
`recordAt_eq_some_iff`. If the record files hold the records of a map (`Holds`), every scan of the
tree is a scan of the map (`Holds.recordsIn`), and the contents that a commit leads to hold the map
with the changes made (`Holds.committed`). For one scan it is enough that the files of its range do
(`HoldsIn.recordsIn`).
-/

namespace AppRegistry.Disk

variable {root : Path} {t t' : FileTree} {c c' G : Contents} {m : OrderedMap Key Json}
  {r : KeyRange} {L : List (Key × Option Json)}

/-! ## One record -/

/-- The same record files stand in both. -/
def SameRecords (c c' : Contents) : Prop :=
  ∀ d b, c d recordName = some (.file b) ↔ c' d recordName = some (.file b)

theorem sameRecords_of_eq (h : ∀ d, c d recordName = c' d recordName) : SameRecords c c' :=
  fun d b => by rw [h d]

theorem SameRecords.symm (h : SameRecords c c') : SameRecords c' c := fun d b => (h d b).symm

theorem SameRecords.trans (h : SameRecords c c') (h' : SameRecords c' G) : SameRecords c G :=
  fun d b => (h d b).trans (h' d b)

theorem SameRecords.isFile_iff (h : SameRecords c c') (d : Path) :
    IsFile (c d recordName) ↔ IsFile (c' d recordName) :=
  exists_congr (h d)

theorem contents_record (d : Path) :
    contents root t d recordName = t.get? (place root d recordName) :=
  contents_of_hidden (by decide)

/-- A record is seen where a file can be reached and read. -/
theorem recordAt_eq_some_iff {k : Key} {v : Json} : recordAt root t k = .ok (some v) ↔
    (recordPath root k).InLimits ∧ ∃ b j, contents root t k.components recordName = some (.file b) ∧
      Json.readBytes? b = some j ∧ j.sorted = v := by
  unfold recordAt
  constructor
  · intro h
    split at h
    · cases h
    · cases h
    · cases h
    · next b hfind =>
      obtain ⟨hl, hb⟩ := FileTree.find_eq_ok_iff.mp hfind
      split at h
      · cases h
      · next j hj =>
        exact ⟨hl, b, j, (contents_record _).trans hb, hj, Option.some.inj (Except.ok.inj h)⟩
  · rintro ⟨hl, b, j, hb, hj, rfl⟩
    rw [contents_record] at hb
    have hfind : t.find (recordPath root k) = .ok (.file b) := FileTree.find_eq_ok_iff.mpr ⟨hl, hb⟩
    simp only [hfind, hj]

/-- Where a record file stands, it alone decides what is read. -/
theorem recordAt_congr (h : SameRecords (contents root t) (contents root t')) {k : Key}
    (hf : IsFile (contents root t k.components recordName)) :
    recordAt root t k = recordAt root t' k := by
  obtain ⟨b, hb⟩ := hf
  have hb' := (h _ b).mp hb
  rw [contents_record] at hb hb'
  unfold recordAt
  rw [recordPath_eq, FileTree.find_congr hb hb']

/-- On the way to a record file, the same files are in the way wherever the same files stand under
the names that a key may have. -/
theorem file_on_the_way (hr : t.get? root = some .directory) (h : ∀ d n b, isHidden n = false →
      contents root t d n = some (.file b) → contents root t' d n = some (.file b))
    {k : Key} {q : Path} {b : ByteArray} (hq : q <+: recordPath root k)
    (hne : q ≠ recordPath root k)
    (hfile : t.get? q = some (.file b)) : t'.get? q = some (.file b) := by
  have hdirectory : q <+: directory root k := (List.prefix_concat_iff.mp hq).resolve_left hne
  rcases prefix_directory hdirectory with hroot | ⟨d, n, hn, rfl⟩
  · exact absurd hfile (FileTree.not_file_of_prefix hr hroot b)
  · have hn' : ¬ isHidden n = true := by simp [hn]
    obtain ⟨b', heq, hget⟩ := (contents_of_plain hn').mp
      (h d n b hn ((contents_of_plain hn').mpr ⟨b, rfl, hfile⟩))
    rw [hget, heq]

/-- A record is read in the same way wherever the same stands for it and in the way of it. -/
theorem recordAt_eq_of_record (hr : t.get? root = some .directory)
    (hr' : t'.get? root = some .directory) {k : Key} (hl : (recordPath root k).InLimits)
    (hrecord : contents root t' k.components recordName = contents root t k.components recordName)
    (hplain : ∀ d n, isHidden n = false → contents root t' d n = contents root t d n) :
    recordAt root t' k = recordAt root t k := by
  rw [contents_record, contents_record, ← recordPath_eq] at hrecord
  have hway : ∀ q b, q <+: recordPath root k → q ≠ recordPath root k →
      (t.get? q = some (.file b) ↔ t'.get? q = some (.file b)) := fun q b hq hne =>
    ⟨file_on_the_way hr (fun d n b hn hb => (hplain d n hn).trans hb) hq hne,
      file_on_the_way hr' (fun d n b hn hb => (hplain d n hn).symm.trans hb) hq hne⟩
  suffices hfind : t'.find (recordPath root k) = t.find (recordPath root k) by
    unfold recordAt
    rw [hfind]
  cases hx : t.get? (recordPath root k) with
  | some e => exact FileTree.find_congr (hrecord.trans hx) hx
  | none =>
    have hne : ∀ {t : FileTree} {q b}, t.get? (recordPath root k) = none →
        t.get? q = some (.file b) → q ≠ recordPath root k := by
      rintro t q b hnone hfile rfl
      rw [hnone] at hfile
      cases hfile
    -- Without a record the answer depends on whether a file blocks the way, which is the same in
    -- both trees.
    by_cases hfree : ∃ q, q <+: recordPath root k ∧ ∃ b, t.get? q = some (.file b)
    · obtain ⟨q, hq, b, hfile⟩ := hfree
      have hq' := hne hx hfile
      rw [FileTree.find_eq_notADirectory hl hq hq' hfile,
        FileTree.find_eq_notADirectory hl hq hq' ((hway q b hq hq').mp hfile)]
    · have hfree : ∀ q, q <+: recordPath root k → ∀ b, t.get? q ≠ some (.file b) :=
        fun q hq b hfile => hfree ⟨q, hq, b, hfile⟩
      rw [FileTree.find_eq_notFound hl hx hfree,
        FileTree.find_eq_notFound hl (hrecord.trans hx) fun q hq b hfile => ?_]
      exact hfree q hq b ((hway q b hq (hne (hrecord.trans hx) hfile)).mpr hfile)

/-- Leftover files are neither records nor in the way of one. -/
theorem recordAt_eq_of_kept (hr : t.get? root = some .directory)
    (hr' : t'.get? root = some .directory) {k : Key} (hl : (recordPath root k).InLimits)
    (h : ∀ d n, isLeftover n = false → contents root t' d n = contents root t d n) :
    recordAt root t' k = recordAt root t k := by
  refine recordAt_eq_of_record hr hr' hl (h _ _ (by decide)) fun d n hn => h d n ?_
  by_contra hleft
  rw [isHidden_of_isLeftover (by simpa using hleft)] at hn
  cases hn

/-! ## Scans -/

/-- The components that a walk of a range reads off an entry below its base. -/
def componentsAt (r : KeyRange) : Path × Entry → Option (List String)
  | (p, .file _) =>
    if visits r p && p.getLast? == some recordName then some (r.base.components ++ p.dropLast)
    else none
  | (_, .directory) => none

theorem visited_eq (root : Path) (t : FileTree) (r : KeyRange) :
    visited root t r = (t.below (directory root r.base)).filterMap (componentsAt r) := rfl

theorem componentsAt_eq_some_iff {p : Path} {e : Entry} {components : List String} :
    componentsAt r (p, e) = some components ↔ IsFile (some e) ∧
      ∃ q, p = q ++ [recordName] ∧ components = r.base.components ++ q ∧ visits r p = true := by
  cases e with
  | directory => simp [componentsAt]
  | file b =>
    simp only [componentsAt, Bool.and_eq_true, beq_iff_eq, Option.ite_none_right_eq_some,
      Option.some.injEq, isFile_file, true_and]
    constructor
    · rintro ⟨⟨hvisits, hlast⟩, rfl⟩
      obtain ⟨q, rfl⟩ := List.getLast?_eq_some_iff.mp hlast
      exact ⟨q, rfl, by rw [List.dropLast_concat], hvisits⟩
    · rintro ⟨q, rfl, rfl, hvisits⟩
      simp [hvisits]

/-- The components that a walk of a range visits. -/
theorem mem_visited_iff {components : List String} : components ∈ visited root t r ↔
    ∃ q, components = r.base.components ++ q ∧ visits r (q ++ [recordName]) = true ∧
      IsFile (contents root t components recordName) := by
  rw [visited_eq, List.mem_filterMap]
  have hplace : ∀ q, directory root r.base ++ (q ++ [recordName]) =
      place root (r.base.components ++ q) recordName := fun q => by
    simp [directory, place]
  constructor
  · rintro ⟨⟨p, e⟩, hmem, hp⟩
    obtain ⟨-, hget⟩ := FileTree.mem_below_iff.mp hmem
    obtain ⟨⟨b, hb⟩, q, rfl, rfl, hvisits⟩ := componentsAt_eq_some_iff.mp hp
    refine ⟨q, rfl, hvisits, b, ?_⟩
    rw [contents_record, ← hplace, hget, hb]
  · rintro ⟨q, rfl, hvisits, b, hb⟩
    rw [contents_record, ← hplace] at hb
    exact ⟨(q ++ [recordName], .file b), FileTree.mem_below_iff.mpr ⟨by simp, hb⟩,
      componentsAt_eq_some_iff.mpr ⟨isFile_file b, q, rfl, rfl, hvisits⟩⟩

/-- Whether an entry of a tree is a record file of a store. -/
def isRecord (root p : Path) : Entry → Bool
  | .directory => false
  | .file _ => root.isPrefixOf p && p.length ≠ root.length && p.getLast? == some recordName

theorem isRecord_iff {p : Path} {e : Entry} : isRecord root p e = true ↔
    IsFile (some e) ∧ ∃ d, p = place root d recordName := by
  cases e with
  | directory => simp [isRecord]
  | file b =>
    simp only [isRecord, isFile_file, true_and, Bool.and_eq_true, List.isPrefixOf_iff_prefix,
      decide_eq_true_eq, beq_iff_eq]
    constructor
    · rintro ⟨⟨⟨q, rfl⟩, hlen⟩, hlast⟩
      have hq : q ≠ [] := fun hq => hlen (by rw [hq, List.append_nil])
      rw [List.getLast?_append_of_ne_nil _ hq, List.getLast?_eq_some_getLast hq,
        Option.some.injEq] at hlast
      exact ⟨q.dropLast, by rw [place, List.append_assoc, ← hlast, List.dropLast_concat_getLast hq]⟩
    · rintro ⟨d, rfl⟩
      simp [place]

theorem records_congr (h : SameRecords (contents root t) (contents root t')) :
    t.entries.filter (isRecord root) = t'.entries.filter (isRecord root) := by
  refine OrderedMap.ext_get? fun p => Option.ext fun e => ?_
  have hentry : ∀ t : FileTree, (t.entries.filter (isRecord root)).get? p = some e ↔
      isRecord root p e = true ∧ p ≠ [] ∧ t.get? p = some e := fun t => by
    rw [OrderedMap.get?_filter, Option.filter_eq_some_iff, ← OrderedMap.mem_toList_iff,
      FileTree.mem_entries_iff, and_comm]
  rw [hentry, hentry]
  refine and_congr_right fun hp => and_congr_right fun _ => ?_
  obtain ⟨⟨b, hb⟩, d, rfl⟩ := isRecord_iff.mp hp
  rw [hb, ← contents_record, ← contents_record]
  exact h d b

/-- A walk visits the same keys in the same order wherever the same record files stand. -/
theorem visited_congr (h : SameRecords (contents root t) (contents root t')) :
    visited root t r = visited root t' r := by
  have hvisited : ∀ t : FileTree, visited root t r =
      (t.entries.filter (isRecord root)).toList.filterMap fun x =>
        (FileTree.fromBelow (directory root r.base) x).bind (componentsAt r) := by
    intro t
    rw [visited_eq, FileTree.below_eq, List.filterMap_filterMap, OrderedMap.filter,
      List.filterMap_filter]
    apply List.filterMap_congr
    intro x _
    split
    · rfl
    · next hx =>
      rw [Option.eq_none_iff_forall_ne_some]
      intro components h
      obtain ⟨⟨p, e⟩, hp, hcomp⟩ := Option.bind_eq_some_iff.mp h
      obtain ⟨-, rfl⟩ := FileTree.fromBelow_eq_some_iff.mp hp
      obtain ⟨hf, q, rfl, -⟩ := componentsAt_eq_some_iff.mp hcomp
      exact hx (isRecord_iff.mpr ⟨hf, r.base.components ++ q, by simp [directory, place]⟩)
  rw [hvisited, hvisited, records_congr h]

theorem collect_cons (root : Path) (t : FileTree) (r : KeyRange) (k : Key)
    (l : List (List String)) :
    collect root t r (k.components :: l) =
      (if r.contains k then recordAt root t k else .ok none) >>= fun found =>
        collect root t r l >>= fun others => .ok (found.toList.map (k, ·) ++ others) := by
  rw [collect, Key.ofComponents_eq_ok_iff.mpr rfl]
  show (if r.contains k = true then _ else _) = _
  by_cases hr : r.contains k = true
  · rw [if_pos hr, if_pos hr]
    rfl
  · rw [if_neg hr, if_neg hr]
    rfl

theorem collect_congr (h : SameRecords (contents root t) (contents root t'))
    {l : List (List String)} (hl : ∀ d ∈ l, IsFile (contents root t d recordName)) :
    collect root t r l = collect root t' r l := by
  induction l with
  | nil => rfl
  | cons d l ih =>
    obtain ⟨hd, hrest⟩ := List.forall_mem_cons.mp hl
    cases hk : Key.ofComponents d with
    | error e =>
      rw [collect, collect, hk]
      rfl
    | ok k =>
      obtain rfl := Key.ofComponents_eq_ok_iff.mp hk
      rw [collect_cons, collect_cons, recordAt_congr h hd, ih hrest]

theorem recordsIn_of_visited_nil (h : visited root t r = []) : recordsIn root t r = .ok [] := by
  unfold recordsIn
  rw [h]
  split <;> rfl

theorem get?_of_mem_visited {components : List String} (h : components ∈ visited root t r) :
    t.get? (directory root r.base) = some .directory := by
  obtain ⟨q, rfl, -, b, hb⟩ := mem_visited_iff.mp h
  rw [contents_record] at hb
  have hsplit : place root (r.base.components ++ q) recordName =
      directory root r.base ++ (q ++ [recordName]) := by simp [directory, place]
  rw [hsplit] at hb
  exact FileTree.get?_of_append hb (by simp)

/-- **A scan depends on the record files alone.** -/
theorem recordsIn_congr (h : SameRecords (contents root t) (contents root t')) (r : KeyRange) :
    recordsIn root t r = recordsIn root t' r := by
  have hvisited := visited_congr (r := r) h
  by_cases hnil : visited root t r = []
  · rw [recordsIn_of_visited_nil hnil, recordsIn_of_visited_nil (hvisited ▸ hnil)]
  · obtain ⟨d, hd⟩ := List.exists_mem_of_ne_nil _ hnil
    have hdir : t.isDirectory (directory root r.base) = t'.isDirectory (directory root r.base) := by
      rw [Bool.eq_iff_iff, FileTree.isDirectory_iff, FileTree.isDirectory_iff,
        get?_of_mem_visited hd, get?_of_mem_visited (hvisited ▸ hd)]
    have hcollect : collect root t r (visited root t r) =
        collect root t' r (visited root t' r) := by
      rw [← hvisited]
      apply collect_congr h
      intro d hd
      obtain ⟨-, -, -, hf⟩ := mem_visited_iff.mp hd
      exact hf
    rw [recordsIn, recordsIn, hdir, hcollect]

/-! ## Files that hold a map -/

/-- The record files hold the records of a map. -/
structure Holds (root : Path) (c : Contents) (m : OrderedMap Key Json) : Prop where
  /-- Every record file belongs to a key of the map and can be read. -/
  sound : ∀ d b, c d recordName = some (.file b) → ∃ k v j, k.components = d ∧ m.get? k = some v ∧
    (recordPath root k).InLimits ∧ Json.readBytes? b = some j ∧ j.sorted = v
  complete : ∀ k v, m.get? k = some v → IsFile (c k.components recordName)

theorem Holds.congr (h : Holds root c m) (hsame : SameRecords c c') : Holds root c' m where
  sound d b hb := h.sound d b ((hsame d b).mpr hb)
  complete k v hv := (hsame.isFile_iff _).mp (h.complete k v hv)

/-! ## Files that hold a map in a range -/

/-- The record files of a range hold the records that a map has there. Every record file belongs to
a key, but none outside the range needs to be readable. -/
structure HoldsIn (root : Path) (r : KeyRange) (c : Contents) (m : OrderedMap Key Json) : Prop where
  of_key : ∀ d, IsFile (c d recordName) → ∃ k : Key, k.components = d
  sound : ∀ k b, r.contains k = true → c k.components recordName = some (.file b) → ∃ v j,
    m.get? k = some v ∧ (recordPath root k).InLimits ∧ Json.readBytes? b = some j ∧ j.sorted = v
  complete : ∀ k v, r.contains k = true → m.get? k = some v → IsFile (c k.components recordName)

theorem Holds.holdsIn (h : Holds root c m) (r : KeyRange) : HoldsIn root r c m where
  of_key d := fun ⟨b, hb⟩ => by
    obtain ⟨k, _, _, hk, -⟩ := h.sound d b hb
    exact ⟨k, hk⟩
  sound k b _ hb := by
    obtain ⟨k', v, j, hk, hrest⟩ := h.sound _ b hb
    exact ⟨v, j, Key.ext hk ▸ hrest⟩
  complete k v _ hv := h.complete k v hv

theorem HoldsIn.recordAt (h : HoldsIn root r (contents root t) m) {k : Key} {v : Json}
    (hr : r.contains k = true) (hv : m.get? k = some v) : recordAt root t k = .ok (some v) := by
  obtain ⟨b, hb⟩ := h.complete k v hr hv
  obtain ⟨v', j, hv', hl, hj, rfl⟩ := h.sound k b hr hb
  obtain rfl := Option.some.inj (hv'.symm.trans hv)
  exact recordAt_eq_some_iff.mpr ⟨hl, b, j, hb, hj, rfl⟩

theorem Holds.recordAt (h : Holds root (contents root t) m) {k : Key} {v : Json}
    (hv : m.get? k = some v) : recordAt root t k = .ok (some v) :=
  (h.holdsIn (.all .root)).recordAt (Transaction.contains_all .root k) hv

/-- What is collected are the records of the map at the visited keys of the range. -/
theorem HoldsIn.collect (h : HoldsIn root r (contents root t) m) {l : List (List String)}
    (hl : ∀ d ∈ l, IsFile (contents root t d recordName)) : ∃ found,
      collect root t r l = .ok found ∧
        (∀ e ∈ found, m.get? e.1 = some e.2 ∧ r.contains e.1 = true) ∧
        ∀ k : Key, k.components ∈ l → r.contains k = true → k ∈ found.map (·.1) := by
  -- Keys outside the range are passed over unread, so their files may hold anything.
  induction l with
  | nil =>
    exact ⟨[], rfl, fun e he => absurd he List.not_mem_nil,
      fun k hk => absurd hk List.not_mem_nil⟩
  | cons d l ih =>
    obtain ⟨hd, hrest⟩ := List.forall_mem_cons.mp hl
    obtain ⟨found, hfound, hsound, hcomplete⟩ := ih hrest
    obtain ⟨k, rfl⟩ := h.of_key d hd
    by_cases hr : r.contains k = true
    · obtain ⟨b, hb⟩ := hd
      obtain ⟨v, -, hv, -⟩ := h.sound k b hr hb
      refine ⟨(k, v) :: found, ?_, ?_, fun k' hk' hr' => ?_⟩
      · rw [collect_cons, if_pos hr, h.recordAt hr hv, hfound]
        rfl
      · exact List.forall_mem_cons.mpr ⟨⟨hv, hr⟩, hsound⟩
      · rw [List.map_cons]
        rcases List.mem_cons.mp hk' with heq | hmem
        · exact List.mem_cons.mpr (.inl (Key.ext heq))
        · exact List.mem_cons_of_mem _ (hcomplete k' hmem hr')
    · refine ⟨found, ?_, hsound, fun k' hk' hr' => ?_⟩
      · rw [collect_cons, if_neg hr, hfound]
        rfl
      · rcases List.mem_cons.mp hk' with heq | hmem
        · exact absurd (Key.ext heq ▸ hr') hr
        · exact hcomplete k' hmem hr'

/-- The walk of a range visits every record of the range. -/
theorem mem_visited_of_contains {k : Key} (hr : r.contains k = true)
    (hf : IsFile (contents root t k.components recordName)) :
    k.components ∈ visited root t r := by
  rw [mem_visited_iff]
  rcases KeyRange.contains_iff.mp hr with ⟨hk, -⟩ | ⟨c, rest, hk, ha⟩
  · exact ⟨[], by rw [hk, List.append_nil], rfl, hf⟩
  · refine ⟨c :: rest, hk, ?_, hf⟩
    cases rest <;> exact ha

/-- **A scan of files that hold a map in the range is a scan of the map.** -/
theorem HoldsIn.recordsIn (h : HoldsIn root r (contents root t) m) :
    recordsIn root t r = .ok (Transaction.recordsIn m r) := by
  obtain ⟨found, hfound, hsound, hcomplete⟩ := h.collect (l := visited root t r)
    fun d hd => (mem_visited_iff.mp hd).choose_spec.2.2
  -- Both lists are those of a map, so it is enough to look up each key.
  have hmap : (OrderedMap.ofList found).toList = Transaction.recordsIn m r := by
    rw [Transaction.recordsIn_eq_filter]
    refine congrArg OrderedMap.toList (OrderedMap.ext_get? fun k => ?_)
    rw [OrderedMap.get?_ofList (f := m.get?) fun e he => (hsound e he).1, OrderedMap.get?_filter]
    by_cases hr : r.contains k = true
    · cases hv : m.get? k with
      | none => simp
      | some v =>
        have hmem := hcomplete k (mem_visited_of_contains hr (h.complete k v hr hv)) hr
        simp only [if_pos hmem, Option.filter, hr, if_true]
    · have hmem : k ∉ found.map (·.1) := by
        intro hmem
        obtain ⟨e, he, rfl⟩ := List.mem_map.mp hmem
        exact hr (hsound e he).2
      rw [if_neg hmem]
      cases m.get? k <;> simp [Option.filter, hr]
  unfold Disk.recordsIn
  split
  · rw [hfound]
    exact congrArg Except.ok hmap
  · next hdir =>
    -- A record of the range would make its base a directory.
    rw [← hmap]
    cases found with
    | nil => rfl
    | cons e rest =>
      obtain ⟨hv, hr⟩ := hsound e List.mem_cons_self
      have hf := h.complete e.1 e.2 hr hv
      have hvisited := mem_visited_of_contains hr hf
      refine absurd (FileTree.isDirectory_iff.mpr ⟨?_, get?_of_mem_visited hvisited⟩) hdir
      obtain ⟨hl, -⟩ := recordAt_eq_some_iff.mp (h.recordAt hr hv)
      obtain ⟨q, hq, -⟩ := mem_visited_iff.mp hvisited
      rw [recordPath_eq, place, hq, ← List.append_assoc, List.append_assoc] at hl
      exact Path.InLimits.of_append hl

theorem Holds.recordsIn (h : Holds root (contents root t) m) (r : KeyRange) :
    recordsIn root t r = .ok (Transaction.recordsIn m r) := (h.holdsIn r).recordsIn

/-! ## Committed changes -/

/-- A value comes back from its record file. -/
def ReadsBack (v : Json) : Prop := ∃ j, Json.readBytes? (recordBytes v) = some j ∧ j.sorted = v

/-- The contents that a commit leads to hold the map with the changes made. -/
theorem Holds.committed {staged : Changes} (h : Holds root G m)
    (hback : ∀ k v, (k, some v) ∈ staged.toList → ReadsBack v)
    (hlimit : ∀ k v, (k, some v) ∈ staged.toList → (recordPath root k).InLimits) :
    Holds root (committed root G staged.toList) (Changes.applyAll m staged.toList) := by
  have hL := nodup_keys staged
  constructor
  · intro d b hb
    by_cases hmem : ∃ k v, (k, v) ∈ staged.toList ∧ d = k.components
    · obtain ⟨k, v, hmem, rfl⟩ := hmem
      rw [committed_of_mem hL hmem] at hb
      cases v with
      | some v =>
        obtain ⟨j, hj, hjv⟩ := hback k v hmem
        obtain rfl := Entry.file.inj (Option.some.inj hb)
        exact ⟨k, v, j, rfl, Changes.get?_applyAll_of_mem m hmem, hlimit k v hmem, hj, hjv⟩
      | none =>
        -- A record file that a deletion leaves would have been one that it replaces.
        simp only [changed, Option.ite_none_left_eq_some] at hb
        obtain ⟨hrep, hb⟩ := hb
        obtain ⟨k', v, j, hk, -, hl, -⟩ := h.sound _ b hb
        rw [Key.ext hk] at hl
        exact absurd (replaced_iff.mpr ⟨hl, b, hb⟩) hrep
    · have hnone : ∀ k v, (k, v) ∈ staged.toList → d ≠ k.components := fun k v hkv hd =>
        hmem ⟨k, v, hkv, hd⟩
      rw [committed_of_not_mem hnone] at hb
      obtain ⟨k, v, j, rfl, hv, hrest⟩ := h.sound d b hb
      refine ⟨k, v, j, rfl, ?_, hrest⟩
      rw [Changes.get?_applyAll_of_not_mem m fun v hv => hnone k v hv rfl]
      exact hv
  · intro k v hv
    by_cases hmem : ∃ v, (k, v) ∈ staged.toList
    · obtain ⟨w, hmem⟩ := hmem
      rw [Changes.get?_applyAll_of_mem m hmem] at hv
      rw [committed_of_mem hL hmem, hv]
      exact isFile_file _
    · have hnone : ∀ v, (k, v) ∉ staged.toList := fun w hw => hmem ⟨w, hw⟩
      rw [Changes.get?_applyAll_of_not_mem m hnone] at hv
      rw [committed_of_not_mem]
      · exact h.complete k v hv
      · intro k' v' hkv hcomp
        obtain rfl := Key.ext hcomp
        exact hnone v' hkv

end AppRegistry.Disk
