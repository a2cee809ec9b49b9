import AppRegistry.Proofs.Json.RoundTrip

/-!
# Reading what was written on many lines

Blanks between tokens change nothing but when a bare word ends, so the form of a value with one
part to a line holds the same tokens as its compact form (`Json.scan_pretty`) and is read back as the
same value.

Main result: `Json.readRecordBytes?_pretty`.
-/

namespace AppRegistry.Json

open Token

/-! ## Blanks between tokens -/

namespace Token

/-- A blank ends a bare word and is passed over elsewhere. -/
theorem Scanner.Holds.blank {s : Scanner} {ts : List Token} (h : s.Holds ts) {c : Char}
    (hc : isBlank c = true) : s.step c = some ⟨ts, .between⟩ := by
  obtain ⟨tokens, mode⟩ := s
  rcases h with ⟨rfl, rfl⟩ | ⟨read, u, rfl, hu, rfl⟩
  · simp [Scanner.step, hc]
  · simp [Scanner.step, hc, hu]

theorem Scanner.reads_blanks (ts : List Token) {bs : List Char}
    (hbs : ∀ c ∈ bs, isBlank c = true) :
    (Scanner.mk ts .between).Reads bs ⟨ts, .between⟩ := by
  induction bs with
  | nil => exact Scanner.reads_nil _
  | cons c bs ih =>
    obtain ⟨hc, hbs⟩ := List.forall_mem_cons.mp hbs
    exact .cons ((Scanner.holds_between ts).blank hc) (ih hbs)

/-- Blanks in front of a text change nothing. -/
theorem Scans.after_blanks {cs : List Char} {new : List Token} (h : Scans cs new)
    (bs : List Char) (hbs : ∀ c ∈ bs, isBlank c = true) : Scans (bs ++ cs) new := by
  intro ts
  obtain ⟨s, hs, hholds⟩ := h ts
  exact ⟨s, (Scanner.reads_blanks ts hbs).append hs, hholds⟩

/-- Blanks behind a text change nothing. -/
theorem Scans.before_blanks {cs : List Char} {new : List Token} (h : Scans cs new)
    (bs : List Char) (hbs : ∀ c ∈ bs, isBlank c = true) : Scans (cs ++ bs) new := by
  intro ts
  obtain ⟨s, hs, hholds⟩ := h ts
  cases bs with
  | nil => exact ⟨s, by rwa [List.append_nil], hholds⟩
  | cons c bs =>
    obtain ⟨hc, hbs⟩ := List.forall_mem_cons.mp hbs
    exact ⟨_, hs.append (.cons (hholds.blank hc) (Scanner.reads_blanks _ hbs)),
      Scanner.holds_between _⟩

end Token

theorem isBlank_of_mem_indent (depth : Nat) : ∀ c ∈ (indent depth).toList, isBlank c = true := by
  intro c hc
  have : c = '\n' ∨ c ∈ List.replicate (2 * depth) ' ' := by
    simpa [indent, String.toList_append] using hc
  rcases this with rfl | hc
  · rfl
  · rw [List.eq_of_mem_replicate hc]
    rfl

/-! ## The tokens of the form on many lines -/

/-- A field on a line of its own. -/
theorem scans_field (depth : Nat) (name : String) {cs : List Char} {new : List Token}
    (h : Scans cs new) :
    Scans ((indent depth).toList ++ ((quoted name).toList ++ ':' :: ' ' :: cs))
      (.string (some name) :: .colon :: new) := by
  have hvalue : Scans (' ' :: cs) new :=
    h.after_blanks [' '] (List.forall_mem_singleton.mpr rfl)
  exact ((scans_quoted name).separate (c := ':') (by decide) (by decide) rfl hvalue).after_blanks _
    (isBlank_of_mem_indent depth)

mutual

theorem scans_prettyAt (depth : Nat) : ∀ j : Json, j.HasWords →
    Scans (prettyAt depth j).toList j.tokens
  | null, h => by simpa [prettyAt, compact] using scans_compact null h
  | bool b, h => by simpa [prettyAt, compact] using scans_compact (bool b) h
  | number n, h => by simpa [prettyAt, compact] using scans_compact (number n) h
  | string s, h => by simpa [prettyAt, compact] using scans_compact (string s) h
  | array [], _ => by
    simpa [prettyAt, scalarText, tokens, itemTokens] using
      scans_nil.separate (c := '[') (by decide) (by decide) rfl
        (scans_nil.separate (c := ']') (by decide) (by decide) rfl scans_nil)
  | object [], _ => by
    simpa [prettyAt, scalarText, tokens, fieldTokens] using
      scans_nil.separate (c := '{') (by decide) (by decide) rfl
        (scans_nil.separate (c := '}') (by decide) (by decide) rfl scans_nil)
  | array (j :: r), h => by
    have := (scans_prettyItems (depth + 1) (j :: r) h).before_blanks _
      (isBlank_of_mem_indent depth)
    simpa [prettyAt, tokens, String.toList_append] using
      scans_nil.separate (c := '[') (by decide) (by decide) rfl
        (this.separate (c := ']') (by decide) (by decide) rfl scans_nil)
  | object (f :: r), h => by
    have := (scans_prettyFields (depth + 1) (f :: r) h).before_blanks _
      (isBlank_of_mem_indent depth)
    simpa [prettyAt, tokens, String.toList_append] using
      scans_nil.separate (c := '{') (by decide) (by decide) rfl
        (this.separate (c := '}') (by decide) (by decide) rfl scans_nil)

theorem scans_prettyItems (depth : Nat) : ∀ items : List Json, ItemsHaveWords items →
    Scans (prettyItems depth items).toList (itemTokens items)
  | [], _ => scans_nil
  | [j], h => by
    simpa [prettyItems, itemTokens, String.toList_append] using
      (scans_prettyAt depth j h.1).after_blanks _ (isBlank_of_mem_indent depth)
  | j :: k :: r, h => by
    have hitem := (scans_prettyAt depth j h.1).after_blanks _ (isBlank_of_mem_indent depth)
    have := scans_prettyItems depth (k :: r) h.2
    simpa [prettyItems, itemTokens, String.toList_append] using
      hitem.separate (c := ',') (by decide) (by decide) rfl this

theorem scans_prettyFields (depth : Nat) : ∀ fields : List (String × Json),
    FieldsHaveWords fields → Scans (prettyFields depth fields).toList (fieldTokens fields)
  | [], _ => scans_nil
  | [(name, j)], h => by
    simpa [prettyFields, fieldTokens, String.toList_append] using
      scans_field depth name (scans_prettyAt depth j h.1)
  | (name, j) :: f :: r, h => by
    have := scans_prettyFields depth (f :: r) h.2
    simpa [prettyFields, fieldTokens, String.toList_append] using
      scans_field depth name ((scans_prettyAt depth j h.1).separate (c := ',') (by decide)
        (by decide) rfl this)

end

/-- **The form with one part to a line has the tokens of the value.** -/
theorem scan_pretty {j : Json} (h : j.HasWords) : scan j.pretty.toList = some j.tokens :=
  (scans_prettyAt 0 j h).scan

/-- **A record written with one part to a line is read back.** -/
theorem readRecordBytes?_pretty {j : Json} (h : j.HasWords) :
    readRecordBytes? j.pretty.toUTF8 = some j :=
  readRecordBytes?_of_scan (scan_pretty h)

end AppRegistry.Json
