import AppRegistry.Json.Codec
import AppRegistry.Proofs.Json.RoundTrip

/-!
# Keys and their texts

A key is checked component by component wherever it is built, and written with slashes between its
components.

**Theorem (`Key.text_format`).** A text is read as the key of its non-empty parts, and the first part
that is not valid is reported. The text of a key is read back as the key.

That it is read back rests on one property of components: none of them holds a slash. So the pieces
into which the text of a key falls are its components (`cutsInto_text`), where only the key without
components has a piece of its own, the empty one, which the reader drops.
-/

namespace AppRegistry

namespace Key

variable {k l : Key} {c s : String}

/-! ## Building keys -/

theorem ofComponents_eq_ok_iff {l : List String} : ofComponents l = .ok k ↔ k.components = l := by
  unfold ofComponents
  split
  · exact ⟨fun h => Except.ok.inj h ▸ rfl, fun h => congrArg _ (ext h.symm)⟩
  · next e he =>
    refine ⟨nofun, fun h => ?_⟩
    rw [firstFault_eq_none_iff.mpr (h ▸ k.valid)] at he
    cases he

theorem child_eq_ok_iff : k.child c = .ok l ↔ l.components = k.components ++ [c] := by
  unfold child
  split
  · next f hf =>
    refine ⟨nofun, fun h => ?_⟩
    have hvalid : Component.IsValid c := l.valid c (by simp [h])
    rw [Component.fault?_eq_none_iff.mpr hvalid] at hf
    cases hf
  · exact ⟨fun h => Except.ok.inj h ▸ rfl, fun h => congrArg _ (ext h.symm)⟩

theorem isBelow_iff : k.isBelow l = true ↔ l.components <+: k.components :=
  List.isPrefixOf_iff_prefix

theorem below?_eq_some_iff {base rest : Key} :
    k.below? base = some rest ↔ k.components = base.components ++ rest.components := by
  unfold below?
  split
  · next h =>
    obtain ⟨x, hx⟩ := isBelow_iff.mp h
    have hdrop : k.components.drop base.length = x := by rw [← hx, length, List.drop_left]
    constructor
    · intro h
      rw [← hx, ← hdrop, ← Option.some.inj h]
    · intro hk
      have hrest : k.components.drop base.length = rest.components :=
        hdrop.trans (List.append_cancel_left (hx.trans hk))
      exact congrArg some (ext hrest)
  · next h =>
    refine ⟨nofun, fun hk => absurd (isBelow_iff.mpr ?_) h⟩
    exact hk ▸ List.prefix_append _ _

/-- The reported fault is that of the first component that is not valid. -/
theorem firstFault_eq_some {i : Nat} {l : List String} {e : KeyError}
    (h : firstFault i l = some e) : ∃ before after, l = before ++ e.component :: after ∧
      e.position = i + before.length ∧ (∀ c ∈ before, Component.IsValid c) ∧
      Component.fault? e.component = some e.fault := by
  induction l generalizing i with
  | nil => cases h
  | cons c l ih =>
    rw [firstFault] at h
    split at h
    · next f hf =>
      obtain rfl := Option.some.inj h
      exact ⟨[], l, rfl, (Nat.add_zero i).symm, fun c hc => absurd hc List.not_mem_nil, hf⟩
    · next hc =>
      obtain ⟨before, after, rfl, hposition, hbefore, hfault⟩ := ih h
      refine ⟨c :: before, after, rfl, ?_, ?_, hfault⟩
      · rw [hposition, List.length_cons]
        omega
      · exact List.forall_mem_cons.mpr ⟨Component.fault?_eq_none_iff.mp hc, hbefore⟩

/-- What comes of checking a list of components: the key with these components if all are valid, and
otherwise an error that names the first that is not, its position and what is wrong with it. -/
structure Checks (l : List String) (x : Except KeyError Key) : Prop where
  isOk_iff : (∃ k, x = .ok k) ↔ ∀ c ∈ l, Component.IsValid c
  components : ∀ k, x = .ok k → k.components = l
  fault : ∀ e, x = .error e → ∃ before after, l = before ++ e.component :: after ∧
    e.position = before.length ∧ (∀ c ∈ before, Component.IsValid c) ∧
    Component.fault? e.component = some e.fault

theorem checks_ofComponents (l : List String) : Checks l (ofComponents l) where
  isOk_iff := by
    constructor
    · rintro ⟨k, hk⟩
      exact ofComponents_eq_ok_iff.mp hk ▸ k.valid
    · intro h
      exact ⟨⟨l, h⟩, ofComponents_eq_ok_iff.mpr rfl⟩
  components k := ofComponents_eq_ok_iff.mp
  fault e he := by
    unfold ofComponents at he
    split at he
    · cases he
    · next e' hfault =>
      obtain rfl := Except.error.inj he
      obtain ⟨before, after, hl, hposition, hrest⟩ := firstFault_eq_some hfault
      exact ⟨before, after, hl, hposition.trans (Nat.zero_add _), hrest⟩

theorem checks_child (k : Key) (c : String) : Checks (k.components ++ [c]) (k.child c) where
  isOk_iff := by
    constructor
    · rintro ⟨l, hl⟩
      exact child_eq_ok_iff.mp hl ▸ l.valid
    · intro h
      exact ⟨⟨_, h⟩, child_eq_ok_iff.mpr rfl⟩
  components l := child_eq_ok_iff.mp
  fault e he := by
    unfold child at he
    split at he
    · next f hf =>
      obtain rfl := Except.error.inj he
      exact ⟨k.components, [], rfl, rfl, k.valid, hf⟩
    · cases he

/-! ## Cutting a text -/

/-- The text falls into these pieces where it is cut at every slash. -/
structure CutsInto (s : String) (pieces : List String) : Prop where
  ne_nil : pieces ≠ []
  no_slash : ∀ p ∈ pieces, '/' ∉ p.toList
  text_eq : "/".intercalate pieces = s

theorem toList_display (components : List String) :
    (display components).toList = ['/'].intercalate (components.map String.toList) := by
  rw [display, String.toList_intercalate]
  rfl

theorem map_ofList_toList (l : List String) : (l.map String.toList).map String.ofList = l := by
  rw [List.map_map]
  exact (List.map_congr_left fun c _ => String.ofList_toList).trans (List.map_id _)

theorem map_toList_ofList (l : List (List Char)) : (l.map String.ofList).map String.toList = l := by
  rw [List.map_map]
  exact (List.map_congr_left fun cs _ => String.toList_ofList).trans (List.map_id _)

theorem not_mem_of_mem_splitOn {x : Char} {cs piece : List Char} (h : piece ∈ cs.splitOn x) :
    x ∉ piece := by
  induction cs generalizing piece with
  | nil =>
    obtain rfl := List.mem_singleton.mp h
    exact List.not_mem_nil
  | cons c cs ih =>
    rw [List.splitOn_cons_eq_if_modifyHead] at h
    split at h
    · rcases List.mem_cons.mp h with rfl | h
      · exact List.not_mem_nil
      · exact ih h
    · next hc =>
      obtain ⟨first, rest, hsplit⟩ := List.exists_cons_of_ne_nil (List.splitOn_ne_nil x cs)
      rw [hsplit, List.modifyHead_cons] at h
      rcases List.mem_cons.mp h with rfl | h
      · rw [List.mem_cons, not_or]
        refine ⟨fun hx => hc ?_, ih (hsplit ▸ List.mem_cons_self)⟩
        rw [hx, beq_self_eq_true]
      · exact ih (hsplit ▸ List.mem_cons_of_mem first h)

/-- A text falls into pieces in one way. -/
theorem cutsInto_iff {pieces : List String} :
    CutsInto s pieces ↔ pieces = (s.toList.splitOn '/').map String.ofList := by
  constructor
  · rintro ⟨hne, hslash, rfl⟩
    have hcut : (display pieces).toList.splitOn '/' = pieces.map String.toList := by
      rw [toList_display]
      refine List.splitOn_intercalate '/' (fun cs hcs => ?_) (by simpa using hne)
      obtain ⟨p, hp, rfl⟩ := List.mem_map.mp hcs
      exact hslash p hp
    rw [show "/".intercalate pieces = display pieces from rfl, hcut, map_ofList_toList]
  · rintro rfl
    refine ⟨by simp, fun p hp => ?_, ?_⟩
    · obtain ⟨cs, hcs, rfl⟩ := List.mem_map.mp hp
      rw [String.toList_ofList]
      exact not_mem_of_mem_splitOn hcs
    · refine String.toList_injective ?_
      show (display _).toList = s.toList
      rw [toList_display, map_toList_ofList, List.intercalate_splitOn]

/-- The parts of a text are its pieces without the empty ones. -/
theorem CutsInto.parts {pieces : List String} (h : CutsInto s pieces) :
    parts s = pieces.filter (· ≠ "") := by
  rw [cutsInto_iff.mp h, Key.parts, List.filter_map]
  refine congrArg _ (List.filter_congr fun cs _ => ?_)
  simp [String.ofList_eq_empty_iff]

theorem slash_not_mem (h : Component.IsValid c) : '/' ∉ c.toList := fun hc =>
  absurd (h.2.2 '/' hc) (by decide)

theorem cutsInto_text (h : k.components ≠ []) : CutsInto k.text k.components :=
  ⟨h, fun c hc => slash_not_mem (k.valid c hc), rfl⟩

theorem parts_text (k : Key) : parts k.text = k.components := by
  by_cases h : k.components = []
  · rw [text, h]
    rfl
  · rw [(cutsInto_text h).parts, List.filter_eq_self]
    intro c hc
    have hne : c ≠ "" := fun h => (k.valid c hc).1 (h ▸ rfl)
    simpa using hne

/-! ## Reading a text -/

/-- The text of a key is read as the key. -/
theorem parse_text (k : Key) : parse k.text = .ok k := by
  rw [parse, parts_text, ofComponents_eq_ok_iff]

theorem text_inj : k.text = l.text ↔ k = l := by
  refine ⟨fun h => ?_, congrArg text⟩
  have hk := parse_text k
  rw [h, parse_text] at hk
  exact (Except.ok.inj hk).symm

end Key

theorem decode?_key_eq_some_iff {j : Json} {k : Key} :
    decode? j = some k ↔ ∃ s, j = .string s ∧ Key.parse s = .ok k := by
  constructor
  · intro h
    cases j with
    | string s =>
      refine ⟨s, rfl, ?_⟩
      have hs : (Key.parse s).toOption = some k := h
      cases hparse : Key.parse s with
      | ok l =>
        rw [hparse] at hs
        exact congrArg Except.ok (Option.some.inj hs)
      | error e =>
        rw [hparse] at hs
        cases hs
    | null | bool | number | array | object => cases h
  · rintro ⟨s, rfl, h⟩
    show (Key.parse s).toOption = some k
    rw [h]
    rfl

theorem decode?_encode_key (k : Key) : decode? (encode k) = some k :=
  decode?_key_eq_some_iff.mpr ⟨k.text, rfl, k.parse_text⟩

/-- **The text format of keys.** A text falls into pieces at its slashes, and the pieces that are not
empty are its parts. A text is read as the key with these parts if each of them is valid, and
otherwise the first that is not is reported, with its position among the parts and with what is
wrong with it. Lists of components and components put below a key are checked in the same way; keys
joined have the components of both, a key without a prefix has the others, and a written key is a
string that is read as a key. Of every key all components are valid, its text and what it is written
as are read back as the key, and no two keys have the same text. -/
theorem Key.text_format :
    (∀ s, ∃ pieces, (∀ l, CutsInto s l ↔ l = pieces) ∧ parts s = pieces.filter (· ≠ "")) ∧
    (∀ s, Checks (parts s) (parse s)) ∧
    (∀ l, Checks l (ofComponents l)) ∧
    (∀ (k : Key) c, Checks (k.components ++ [c]) (k.child c)) ∧
    (∀ k l : Key, (k.join l).components = k.components ++ l.components) ∧
    (∀ k base rest : Key,
      k.below? base = some rest ↔ k.components = base.components ++ rest.components) ∧
    (∀ (j : Json) (k : Key), decode? j = some k ↔ ∃ s, j = .string s ∧ parse s = .ok k) ∧
    ∀ k : Key, (∀ c ∈ k.components, Component.IsValid c) ∧ parse k.text = .ok k ∧
      decode? (encode k) = some k ∧
      (Json.readRecordBytes? (encode k).compact.toUTF8 >>= decode?) = some k ∧
      ∀ l : Key, k.text = l.text ↔ k = l := by
  refine ⟨fun s => ⟨_, fun l => cutsInto_iff, (cutsInto_iff.mpr rfl).parts⟩,
    fun s => checks_ofComponents (parts s), checks_ofComponents, checks_child, fun _ _ => rfl,
    fun _ _ _ => below?_eq_some_iff, fun _ _ => decode?_key_eq_some_iff, fun k => ?_⟩
  refine ⟨k.valid, k.parse_text, decode?_encode_key k, ?_, fun l => text_inj⟩
  have hwords : (encode k).HasWords := trivial
  rw [Json.readRecordBytes?_compact hwords]
  exact decode?_encode_key k

end AppRegistry
