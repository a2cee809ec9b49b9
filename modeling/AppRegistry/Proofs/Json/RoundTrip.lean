import AppRegistry.Json.Reader
import AppRegistry.Proofs.Json.Scanning

/-!
# Reading what was written

A value whose numbers are integers of 64 bits comes back from its compact form.

Main results: `Json.readRecordBytes?_compact` for the reader of records, and
`Json.readBytes?_compact` for the reader of values to keep, which takes a value only up to a depth
(`Json.depth`).
-/

namespace AppRegistry.Json

/-! ## Depth -/

mutual

/-- How deep the brackets of a value nest. -/
def depth : Json → Nat
  | array items => itemsDepth items + 1
  | object fields => fieldsDepth fields + 1
  | _ => 0

/-- How deep the brackets of some items nest. -/
def itemsDepth : List Json → Nat
  | [] => 0
  | j :: r => max (depth j) (itemsDepth r)

/-- How deep the brackets of the values of some fields nest. -/
def fieldsDepth : List (String × Json) → Nat
  | [] => 0
  | (_, j) :: r => max (depth j) (fieldsDepth r)

end

mutual

theorem nestsWithin_tokens (limit : Nat) (rest : List Token) :
    ∀ (j : Json) (opened : Nat), opened + j.depth ≤ limit →
      nestsWithin limit opened (j.tokens ++ rest) = nestsWithin limit opened rest
  | null, _, _ | bool _, _, _ | number _, _, _ | string _, _, _ => rfl
  | array items, opened, h => by
    have h : opened + (itemsDepth items + 1) ≤ limit := h
    have := nestsWithin_itemTokens limit (.endArray :: rest) items (opened + 1) (by omega)
    have hopen : opened < limit := by omega
    simp [tokens, nestsWithin, hopen, this]
  | object fields, opened, h => by
    have h : opened + (fieldsDepth fields + 1) ≤ limit := h
    have := nestsWithin_fieldTokens limit (.endObject :: rest) fields (opened + 1) (by omega)
    have hopen : opened < limit := by omega
    simp [tokens, nestsWithin, hopen, this]

theorem nestsWithin_itemTokens (limit : Nat) (rest : List Token) :
    ∀ (items : List Json) (opened : Nat), opened + itemsDepth items ≤ limit →
      nestsWithin limit opened (itemTokens items ++ rest) = nestsWithin limit opened rest
  | [], _, _ => rfl
  | [j], opened, h => nestsWithin_tokens limit rest j opened (by simp only [itemsDepth] at h; omega)
  | j :: k :: r, opened, h => by
    have h : opened + max j.depth (itemsDepth (k :: r)) ≤ limit := h
    have hr := nestsWithin_itemTokens limit rest (k :: r) opened (by omega)
    have hj :=
      nestsWithin_tokens limit (.comma :: (itemTokens (k :: r) ++ rest)) j opened (by omega)
    simpa [itemTokens, nestsWithin, hr] using hj

theorem nestsWithin_fieldTokens (limit : Nat) (rest : List Token) :
    ∀ (fields : List (String × Json)) (opened : Nat), opened + fieldsDepth fields ≤ limit →
      nestsWithin limit opened (fieldTokens fields ++ rest) = nestsWithin limit opened rest
  | [], _, _ => rfl
  | [(_, j)], opened, h =>
    nestsWithin_tokens limit rest j opened (by simp only [fieldsDepth] at h; omega)
  | (_, j) :: f :: r, opened, h => by
    have h : opened + max j.depth (fieldsDepth (f :: r)) ≤ limit := h
    have hr := nestsWithin_fieldTokens limit rest (f :: r) opened (by omega)
    have hj :=
      nestsWithin_tokens limit (.comma :: (fieldTokens (f :: r) ++ rest)) j opened (by omega)
    simpa [fieldTokens, nestsWithin, hr] using hj

end

mutual

theorem isSound_tokens : ∀ j : Json, j.tokens.all Token.isSound = true
  | null | bool _ | number _ | string _ => rfl
  | array items => by simp [tokens, Token.isSound, isSound_itemTokens items]
  | object fields => by simp [tokens, Token.isSound, isSound_fieldTokens fields]

theorem isSound_itemTokens : ∀ items : List Json, (itemTokens items).all Token.isSound = true
  | [] => rfl
  | [j] => isSound_tokens j
  | j :: k :: r => by
    simp [itemTokens, Token.isSound, isSound_tokens j, isSound_itemTokens (k :: r)]

theorem isSound_fieldTokens :
    ∀ fields : List (String × Json), (fieldTokens fields).all Token.isSound = true
  | [] => rfl
  | [(_, j)] => by simp [fieldTokens, Token.isSound, isSound_tokens j]
  | (_, j) :: f :: r => by
    simp [fieldTokens, Token.isSound, isSound_tokens j, isSound_fieldTokens (f :: r)]

end

/-! ## Building a value from its tokens -/

namespace Expecting

/-- A reader gets from one state to another by taking some tokens. -/
def Takes (e : Expecting) (ts : List Token) (e' : Expecting) : Prop := ts.foldlM step e = some e'

theorem takes_nil (e : Expecting) : e.Takes [] e := rfl

theorem Takes.cons {e u e₂ : Expecting} {t : Token} {ts : List Token} (h : e.step t = some u)
    (h' : u.Takes ts e₂) : e.Takes (t :: ts) e₂ := by
  unfold Takes at *
  rw [List.foldlM_cons, h]
  exact h'

theorem Takes.append {e e₁ e₂ : Expecting} {ts us : List Token} (h : e.Takes ts e₁)
    (h' : e₁.Takes us e₂) : e.Takes (ts ++ us) e₂ := by
  unfold Takes at *
  rw [List.foldlM_append, h]
  exact h'

end Expecting

open Expecting

theorem ofFields_some (fields : List (String × Json)) :
    ofFields (fields.map fun f => (some f.1, f.2)).reverse = object fields := by
  have : (fields.map fun f => ((some f.1 : Option String), f.2)).mapM
      (fun f => f.1.map (·, f.2)) = some fields := by
    induction fields with
    | nil => rfl
    | cons f r ih => simp [List.mapM_cons, ih]
  rw [ofFields, List.reverse_reverse, this]

theorem itemTokens_cons_cons (j k : Json) (r : List Json) :
    itemTokens (j :: k :: r) = j.tokens ++ .comma :: itemTokens (k :: r) := rfl

theorem fieldTokens_cons_cons (name : String) (j : Json) (f : String × Json)
    (r : List (String × Json)) : fieldTokens ((name, j) :: f :: r) =
      .string (some name) :: .colon :: (j.tokens ++ .comma :: fieldTokens (f :: r)) := rfl

/-- The first token of a value starts a value. -/
theorem exists_tokens_eq_cons (j : Json) : ∃ t ts, j.tokens = t :: ts ∧ t ≠ .endArray := by
  cases j <;> exact ⟨_, _, rfl, by simp⟩

/-- Behind the bracket that opens a list, a value is read as any item is. -/
theorem takes_firstItem {j : Json} {stack : List Frame} {ts : List Token} {e : Expecting}
    (h : (value (.items [] :: stack)).Takes (j.tokens ++ ts) e) :
    (firstItem stack).Takes (j.tokens ++ ts) e := by
  obtain ⟨t, us, hj, ht⟩ := exists_tokens_eq_cons j
  -- The two states differ only in a bracket that closes the list.
  have hstep : (firstItem stack).step t = (value (.items [] :: stack)).step t := by
    cases t <;> first | rfl | exact absurd rfl ht
  unfold Takes at *
  rw [hj, List.cons_append, List.foldlM_cons] at h ⊢
  rw [hstep]
  exact h

mutual

theorem takes_tokens : ∀ (j : Json) (stack : List Frame),
    (value stack).Takes j.tokens (deliver j stack)
  | null, stack | bool _, stack | number _, stack | string _, stack => .cons rfl (takes_nil _)
  | array [], stack => .cons (u := firstItem stack) rfl (.cons rfl (takes_nil _))
  | array (j :: r), stack => by
    have h := takes_itemTokens (j :: r) (List.cons_ne_nil j r) [] stack
    refine .cons (u := firstItem stack) rfl ?_
    -- A single value is followed by the bracket, any other one by a comma.
    cases r with
    | nil => exact takes_firstItem h
    | cons k r =>
      rw [itemTokens_cons_cons, List.append_assoc] at h ⊢
      exact takes_firstItem h
  | object [], stack => .cons (u := firstName stack) rfl (.cons rfl (takes_nil _))
  | object (f :: r), stack => by
    have h := takes_fieldTokens (f :: r) (List.cons_ne_nil f r) [] stack
    refine .cons (u := firstName stack) rfl ?_
    -- The bracket expects a name just as a comma does.
    cases r with
    | nil => exact h
    | cons g r => exact h

theorem takes_itemTokens : ∀ items : List Json, items ≠ [] → ∀ (read : List Json)
    (stack : List Frame), (value (.items read :: stack)).Takes (itemTokens items ++ [.endArray])
      (deliver (.array (read.reverse ++ items)) stack)
  | [], hne, _, _ => absurd rfl hne
  | [j], _, read, stack => by
    refine (takes_tokens j _).append (.cons ?_ (takes_nil _))
    simp [deliver, step]
  | j :: k :: r, _, read, stack => by
    have h := takes_itemTokens (k :: r) (List.cons_ne_nil k r) (j :: read) stack
    rw [itemTokens_cons_cons, List.append_assoc]
    refine (takes_tokens j _).append (.cons (u := value (.items (j :: read) :: stack)) rfl ?_)
    simpa using h

theorem takes_fieldTokens : ∀ fields : List (String × Json), fields ≠ [] →
    ∀ (read : List (String × Json)) (stack : List Frame),
      (nextName (read.map fun f => (some f.1, f.2)).reverse stack).Takes
        (fieldTokens fields ++ [.endObject]) (deliver (.object (read ++ fields)) stack)
  | [], hne, _, _ => absurd rfl hne
  | [(name, j)], _, read, stack => by
    refine .cons rfl (.cons rfl ((takes_tokens j _).append (.cons ?_ (takes_nil _))))
    have := ofFields_some (read ++ [(name, j)])
    simp only [List.map_append, List.map_cons, List.map_nil, List.reverse_append,
      List.reverse_cons, List.reverse_nil, List.nil_append, List.cons_append] at this
    simp only [deliver, step, this]
  | (name, j) :: f :: r, _, read, stack => by
    have h := takes_fieldTokens (f :: r) (List.cons_ne_nil f r) (read ++ [(name, j)]) stack
    simp only [List.map_append, List.map_cons, List.map_nil, List.reverse_append,
      List.reverse_cons, List.reverse_nil, List.nil_append, List.cons_append,
      List.append_assoc] at h
    rw [fieldTokens_cons_cons]
    simp only [List.cons_append, List.append_assoc]
    exact .cons rfl (.cons rfl ((takes_tokens j _).append (.cons rfl h)))

end

theorem ofTokens?_tokens (j : Json) : ofTokens? j.tokens = some j := by
  have h := takes_tokens j []
  unfold Takes at h
  unfold ofTokens?
  rw [h]
  rfl

/-! ## The round trip -/

theorem fromUTF8?_toUTF8 (s : String) : String.fromUTF8? s.toUTF8 = some s :=
  dif_pos s.isValidUTF8

/-- A text with the tokens of a value is read as that value. -/
theorem readRecordBytes?_of_scan {s : String} {j : Json} (h : Token.scan s.toList = some j.tokens) :
    readRecordBytes? s.toUTF8 = some j := by
  rw [readRecordBytes?, Token.scanBytes_toUTF8, h]
  exact ofTokens?_tokens j

/-- **A record written is read back.** -/
theorem readRecordBytes?_compact {j : Json} (h : j.HasWords) :
    readRecordBytes? j.compact.toUTF8 = some j :=
  readRecordBytes?_of_scan (scan_compact h)

/-- **A value written is read back**, unless it nests too deep to be kept. -/
theorem readBytes?_compact {j : Json} (h : j.HasWords) (hd : j.depth ≤ depthLimit) :
    readBytes? j.compact.toUTF8 = some j := by
  have hnest : nestsWithin depthLimit 0 j.tokens = true := by
    have := nestsWithin_tokens depthLimit [] j 0 (by omega)
    rwa [List.append_nil] at this
  rw [readBytes?, fromUTF8?_toUTF8]
  show read? j.compact = some j
  rw [read?, scan_compact h]
  show (if _ then _ else _) = _
  rw [isSound_tokens, hnest]
  exact ofTokens?_tokens j

end AppRegistry.Json
