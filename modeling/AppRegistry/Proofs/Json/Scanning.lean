import AppRegistry.Json.Printer
import AppRegistry.Json.Token

/-!
# Scanning what was written

The compact form of a value, scanned, gives the tokens of the value (`Json.tokens`):
`Json.scan_compact`. A string comes back because each escape stands for the character it was made
of, and an integer of 64 bits because its digits are read up to the next separator and add up to it.

While the last token written is a bare word or a number, the scanner still holds its characters
(`Token.Scanner.Holds`); the next separator or the end of the text turns them into the token.
-/

namespace AppRegistry.Json

/-! ## The tokens of a value -/

mutual

/-- The tokens of a value. -/
def tokens : Json → List Token
  | array items => .beginArray :: (itemTokens items ++ [.endArray])
  | object fields => .beginObject :: (fieldTokens fields ++ [.endObject])
  | string s => [.string (some s)]
  | j => [.scalar (some j)]

/-- The tokens of items with commas between them. -/
def itemTokens : List Json → List Token
  | [] => []
  | [j] => tokens j
  | j :: r => tokens j ++ .comma :: itemTokens r

/-- The tokens of fields with commas between them. -/
def fieldTokens : List (String × Json) → List Token
  | [] => []
  | [(name, j)] => .string (some name) :: .colon :: tokens j
  | (name, j) :: r => .string (some name) :: .colon :: (tokens j ++ .comma :: fieldTokens r)

end

/-- An integer of 64 bits, signed or unsigned. -/
def Number.IsWord : Number → Prop
  | .int n => -9223372036854775808 ≤ n ∧ n < Token.wordLimit
  | .real _ => False

mutual

/-- Whether all numbers of a value are integers of 64 bits. -/
def HasWords : Json → Prop
  | number n => n.IsWord
  | array items => ItemsHaveWords items
  | object fields => FieldsHaveWords fields
  | _ => True

/-- Whether all numbers of some items are integers of 64 bits. -/
def ItemsHaveWords : List Json → Prop
  | [] => True
  | j :: r => HasWords j ∧ ItemsHaveWords r

/-- Whether all numbers of some fields are integers of 64 bits. -/
def FieldsHaveWords : List (String × Json) → Prop
  | [] => True
  | (_, j) :: r => HasWords j ∧ FieldsHaveWords r

end

namespace Token

/-! ## Numbers -/

theorem isDigit_of_mem {n : Nat} {c : Char} (h : c ∈ Nat.toDigits 10 n) : c.isDigit = true :=
  Nat.isDigit_of_mem_toDigits (by decide) (by decide) h

theorem digits_toDigits (n : Nat) : digits (Nat.toDigits 10 n) = (Nat.toDigits 10 n, []) := by
  have hall : ∀ c ∈ Nat.toDigits 10 n, c.isDigit = true := fun c => isDigit_of_mem
  unfold digits
  generalize Nat.toDigits 10 n = l at hall
  induction l with
  | nil => rfl
  | cons c l ih =>
    obtain ⟨hc, hl⟩ := List.forall_mem_cons.mp hall
    simp only [List.takeWhile_cons, List.dropWhile_cons, hc, if_true]
    rw [(Prod.mk.inj (ih hl)).1, (Prod.mk.inj (ih hl)).2]

theorem ofDigits_toDigits (n : Nat) : ofDigits (Nat.toDigits 10 n) = n :=
  Nat.ofDigitChars_toDigits (b := 10) (by decide) (by decide)

/-- Only zero is written with a zero in front. -/
theorem head?_toDigits {n : Nat} (hn : n ≠ 0) : (Nat.toDigits 10 n).head? ≠ some '0' := by
  induction n using Nat.strongRecOn with
  | ind n ih =>
    by_cases h : n < 10
    · rw [Nat.toDigits_of_lt_base h]
      simpa using hn
    · have ih := ih (n / 10) (by omega) (by omega)
      rw [Nat.toDigits_of_base_le (by decide) (by omega), List.head?_append]
      cases hh : (Nat.toDigits 10 (n / 10)).head? with
      | none => exact absurd (List.head?_eq_none_iff.mp hh) Nat.toDigits_ne_nil
      | some c => simpa [hh] using ih

theorem leadingZero_toDigits (n : Nat) : ¬ (Nat.toDigits 10 n = [] ∨
    ((Nat.toDigits 10 n).head? = some '0' ∧ (Nat.toDigits 10 n).length ≠ 1)) := by
  rintro (h | ⟨hhead, hlen⟩)
  · exact Nat.toDigits_ne_nil h
  · by_cases hn : n = 0
    · subst hn
      exact hlen rfl
    · exact head?_toDigits hn hhead

theorem sign_toDigits (n : Nat) : sign (Nat.toDigits 10 n) = (false, Nat.toDigits 10 n) := by
  unfold sign
  split
  · next r h =>
    have := isDigit_of_mem (n := n) (c := '-') (h ▸ List.mem_cons_self)
    exact absurd this (by decide)
  · rfl

theorem number?_toDigits {n : Nat} (h : n < wordLimit) :
    number? (Nat.toDigits 10 n) = some (some (.int n)) := by
  unfold number?
  simp only [sign_toDigits, digits_toDigits, if_neg (leadingZero_toDigits n), fraction?, exponent?,
    ofDigits_toDigits, h]
  rfl

theorem number?_neg_toDigits {n : Nat} (hpos : 0 < n) (h : n ≤ 9223372036854775808) :
    number? ('-' :: Nat.toDigits 10 n) = some (some (.int (-n))) := by
  unfold number?
  simp only [sign, digits_toDigits, if_neg (leadingZero_toDigits n), fraction?, exponent?,
    ofDigits_toDigits, hpos, h]
  rfl

/-! ## Steps of the scanner -/

namespace Scanner

/-- The scanner gets from one state to another by reading some characters. -/
def Reads (s : Scanner) (cs : List Char) (s' : Scanner) : Prop := cs.foldlM step s = some s'

theorem Reads.append {s s₁ s₂ : Scanner} {cs ds : List Char} (h : s.Reads cs s₁)
    (h' : s₁.Reads ds s₂) : s.Reads (cs ++ ds) s₂ := by
  unfold Reads at *
  rw [List.foldlM_append, h]
  exact h'

theorem Reads.cons {s u s₂ : Scanner} {c : Char} {cs : List Char} (h : s.step c = some u)
    (h' : u.Reads cs s₂) : s.Reads (c :: cs) s₂ := by
  unfold Reads at *
  rw [List.foldlM_cons, h]
  exact h'

theorem reads_nil (s : Scanner) : s.Reads [] s := rfl

/-- The tokens of a scanner, last first, once what it is in the middle of is taken as a token. -/
def Holds (s : Scanner) (ts : List Token) : Prop :=
  (s.mode = .between ∧ s.tokens = ts) ∨
    ∃ read t, s.mode = .bare read ∧ bare? read.reverse = some t ∧ ts = t :: s.tokens

theorem holds_between (ts : List Token) : (Scanner.mk ts .between).Holds ts := .inl ⟨rfl, rfl⟩

theorem Holds.step {s : Scanner} {ts : List Token} (h : s.Holds ts) {c : Char} {t : Token}
    (hblank : isBlank c = false) (hquote : c ≠ '"') (hc : punctuation? c = some t) :
    s.step c = some ⟨t :: ts, .between⟩ := by
  obtain ⟨tokens, mode⟩ := s
  -- A bare word that was not ended yet is taken as a token along with the character.
  rcases h with ⟨rfl, rfl⟩ | ⟨read, u, rfl, hu, rfl⟩
  · simp [Scanner.step, hblank, hquote, hc]
  · simp [Scanner.step, hblank, hquote, hc, hu]

theorem Holds.finish {s : Scanner} {ts : List Token} (h : s.Holds ts) :
    s.finish? = some ts.reverse := by
  obtain ⟨tokens, mode⟩ := s
  rcases h with ⟨rfl, rfl⟩ | ⟨read, u, rfl, hu, rfl⟩
  · rfl
  · simp [Scanner.finish?, hu]

end Scanner

/-! ## Strings -/

theorem charactersOf?_toNat (cs : List Char) : charactersOf? (cs.map (·.toNat)) = some cs := by
  induction cs with
  | nil => rfl
  | cons c cs ih =>
    have hc : c.toNat.isValidChar := c.valid
    simp only [List.map_cons, charactersOf?.eq_def (_ :: _), if_pos hc, ih]
    simp

theorem hexDigit?_digitChar : ∀ n < 0x20, hexDigit? (Nat.digitChar (n / 16)) = some (n / 16) ∧
    hexDigit? (Nat.digitChar (n % 16)) = some (n % 16) := by decide

/-- What stands for a character in quotes is read as that character. -/
theorem reads_escaped (ts : List Token) (read : List Nat) (c : Char) :
    (Scanner.mk ts (.quoted read)).Reads (escaped c) ⟨ts, .quoted (c.toNat :: read)⟩ := by
  have hshort : ∀ d, shortEscape? d = some c → d ≠ 'u' →
      (Scanner.mk ts (.quoted read)).Reads ['\\', d] ⟨ts, .quoted (c.toNat :: read)⟩ := by
    intro d hd hu
    refine .cons (u := ⟨ts, .escape read⟩) rfl (.cons ?_ (Scanner.reads_nil _))
    simp [Scanner.step, hu, hd]
  unfold escaped
  split
  · next h => subst h; exact hshort _ rfl (by decide)
  split
  · next h => subst h; exact hshort _ rfl (by decide)
  split
  · next h => subst h; exact hshort _ rfl (by decide)
  split
  · next h => subst h; exact hshort _ rfl (by decide)
  split
  · next h => subst h; exact hshort _ rfl (by decide)
  split
  · next h => subst h; exact hshort _ rfl (by decide)
  split
  · next h => subst h; exact hshort _ rfl (by decide)
  split
  · next hlow =>
    -- The other control characters are written with four digits, of which the first two are zero.
    obtain ⟨hhigh, hlast⟩ := hexDigit?_digitChar c.toNat hlow
    refine .cons (u := ⟨ts, .escape read⟩) rfl (.cons (u := ⟨ts, .numbered read 0 0⟩) rfl ?_)
    refine .cons (u := ⟨ts, .numbered read 0 1⟩) rfl (.cons (u := ⟨ts, .numbered read 0 2⟩) rfl ?_)
    refine .cons (u := ⟨ts, .numbered read (c.toNat / 16) 3⟩) ?_ (.cons ?_ (Scanner.reads_nil _))
    · simp [Scanner.step, hhigh]
    · simp only [Scanner.step, hlast, Option.bind_eq_bind, Option.bind_some, if_true]
      rw [Nat.div_add_mod]
  · next hquote hback _ _ _ _ _ hlow =>
    refine .cons ?_ (Scanner.reads_nil _)
    simp [Scanner.step, hquote, hback, hlow]

theorem reads_quoted (ts : List Token) (s : String) :
    (Scanner.mk ts .between).Reads (quoted s).toList ⟨.string (some s) :: ts, .between⟩ := by
  -- The characters go onto the list in reverse, so what was read before is general.
  have hinside : ∀ (cs : List Char) (read : List Nat), (Scanner.mk ts (.quoted read)).Reads
      (cs.flatMap escaped) ⟨ts, .quoted ((cs.map (·.toNat)).reverse ++ read)⟩ := by
    intro cs
    induction cs with
    | nil => exact fun read => Scanner.reads_nil _
    | cons c cs ih =>
      intro read
      rw [List.flatMap_cons]
      refine (reads_escaped ts read c).append ?_
      simpa using ih (c.toNat :: read)
  have htext : (quoted s).toList = '"' :: (s.toList.flatMap escaped ++ ['"']) := by
    simp [quoted, String.toList_append]
  rw [htext]
  refine .cons (u := ⟨ts, .quoted []⟩) rfl ((hinside s.toList []).append ?_)
  refine .cons ?_ (Scanner.reads_nil _)
  simp [Scanner.step, ofNumbers, charactersOf?_toNat]

/-! ## Bare words and numbers -/

/-- A character that a bare word or a number may hold. -/
def IsPlain (c : Char) : Prop := isBlank c = false ∧ c ≠ '"' ∧ punctuation? c = none

instance (c : Char) : Decidable (IsPlain c) := inferInstanceAs (Decidable (_ ∧ _ ∧ _))

-- Looks at the characters of the list only; a search over all characters would not end.
instance (cs : List Char) : Decidable (∀ c ∈ cs, IsPlain c) := List.decidableBAll IsPlain cs

theorem isPlain_of_isDigit {c : Char} (h : c.isDigit = true) : IsPlain c := by
  have hne : ∀ d : Char, d.isDigit = false → c ≠ d := by
    rintro d hd rfl
    rw [h] at hd
    cases hd
  refine ⟨?_, hne _ (by decide), ?_⟩
  · simp [isBlank, hne ' ' (by decide), hne '\t' (by decide), hne '\n' (by decide),
      hne '\r' (by decide)]
  · unfold punctuation?
    split
    all_goals first | rfl | exact absurd h (by decide)

/-- A bare word goes on as long as its characters are plain. -/
theorem reads_more (ts : List Token) {cs : List Char} (read : List Char)
    (hplain : ∀ c ∈ cs, IsPlain c) :
    (Scanner.mk ts (.bare read)).Reads cs ⟨ts, .bare (cs.reverse ++ read)⟩ := by
  induction cs generalizing read with
  | nil => exact Scanner.reads_nil _
  | cons c cs ih =>
    obtain ⟨⟨hblank, hquote, hpunct⟩, hcs⟩ := List.forall_mem_cons.mp hplain
    refine .cons (u := ⟨ts, .bare (c :: read)⟩) ?_ ?_
    · simp [Scanner.step, hblank, hquote, hpunct]
    · simpa using ih (c :: read) hcs

theorem reads_bare (ts : List Token) {cs : List Char} (hne : cs ≠ [])
    (hplain : ∀ c ∈ cs, IsPlain c) :
    (Scanner.mk ts .between).Reads cs ⟨ts, .bare cs.reverse⟩ := by
  cases cs with
  | nil => exact absurd rfl hne
  | cons c cs =>
    obtain ⟨⟨hblank, hquote, hpunct⟩, hcs⟩ := List.forall_mem_cons.mp hplain
    refine .cons (u := ⟨ts, .bare [c]⟩) ?_ ?_
    · simp [Scanner.step, hblank, hquote, hpunct]
    · simpa using reads_more ts [c] hcs

theorem holds_of_bare (ts : List Token) {cs : List Char} {t : Token} (h : bare? cs = some t) :
    (Scanner.mk ts (.bare cs.reverse)).Holds (t :: ts) :=
  .inr ⟨cs.reverse, t, rfl, by rwa [List.reverse_reverse], rfl⟩

/-- What starts as a number is none of the words. -/
theorem bare?_of_number {cs : List Char} {c : Char} {n : Number} (hc : cs.head? = some c)
    (hcc : c = '-' ∨ c.isDigit = true) (hn : number? cs = some (some n)) :
    bare? cs = some (.scalar (some (.number n))) := by
  have hword : ∀ w : String, w.toList.head? ≠ some c → cs ≠ w.toList := by
    rintro w hw rfl
    exact hw hc
  have hne : ∀ d : Char, d ≠ '-' → d.isDigit = false → some d ≠ some c := by
    intro d hd hdd h
    obtain rfl := Option.some.inj h
    rcases hcc with hminus | hdigit
    · exact hd hminus
    · rw [hdd] at hdigit
      cases hdigit
  unfold bare?
  rw [if_neg (hword "null" (hne 'n' (by decide) (by decide))),
    if_neg (hword "true" (hne 't' (by decide) (by decide))),
    if_neg (hword "false" (hne 'f' (by decide) (by decide))), hn]
  rfl

theorem toList_text_ofNat (m : Nat) :
    (Number.int (Int.ofNat m)).text.toList = Nat.toDigits 10 m := Nat.toList_repr

theorem toList_text_negSucc (m : Nat) :
    (Number.int (Int.negSucc m)).text.toList = '-' :: Nat.toDigits 10 (m + 1) := by
  show ("-" ++ (m + 1).repr).toList = _
  rw [String.toList_append, Nat.toList_repr]
  rfl

/-- An integer is written in plain characters, and they are read as that integer. -/
theorem bare?_text {n : Number} (h : n.IsWord) : n.text.toList ≠ [] ∧
    (∀ c ∈ n.text.toList, IsPlain c) ∧
      bare? n.text.toList = some (.scalar (some (.number n))) := by
  cases n with
  | real d => exact h.elim
  | int n =>
    obtain ⟨hlow, hhigh⟩ := h
    cases n with
    | ofNat m =>
      rw [toList_text_ofNat]
      obtain ⟨c, hc⟩ : ∃ c, (Nat.toDigits 10 m).head? = some c := by
        cases hd : Nat.toDigits 10 m with
        | nil => exact absurd hd Nat.toDigits_ne_nil
        | cons c cs => exact ⟨c, rfl⟩
      have hm : m < wordLimit := Int.ofNat_lt.mp hhigh
      refine ⟨Nat.toDigits_ne_nil, fun c hc => isPlain_of_isDigit (isDigit_of_mem hc), ?_⟩
      have hdigit : c.isDigit = true := isDigit_of_mem (List.mem_of_mem_head? hc)
      exact bare?_of_number hc (.inr hdigit) (number?_toDigits hm)
    | negSucc m =>
      have hm : m + 1 ≤ 9223372036854775808 := by omega
      rw [toList_text_negSucc]
      refine ⟨List.cons_ne_nil _ _, List.forall_mem_cons.mpr ⟨by decide, fun c hc => ?_⟩, ?_⟩
      · exact isPlain_of_isDigit (isDigit_of_mem hc)
      · exact bare?_of_number rfl (.inl rfl) (number?_neg_toDigits (Nat.succ_pos m) hm)

/-! ## Values -/

/-- The scanner reads some characters and then holds some tokens more. -/
def Scans (cs : List Char) (new : List Token) : Prop :=
  ∀ ts, ∃ s, (Scanner.mk ts .between).Reads cs s ∧ s.Holds (new.reverse ++ ts)

theorem scans_nil : Scans [] [] := fun ts => ⟨_, Scanner.reads_nil _, Scanner.holds_between ts⟩

theorem scans_bare {cs : List Char} {t : Token} (hne : cs ≠ []) (hplain : ∀ c ∈ cs, IsPlain c)
    (h : bare? cs = some t) : Scans cs [t] :=
  fun ts => ⟨_, reads_bare ts hne hplain, holds_of_bare ts h⟩

theorem scans_quoted (s : String) : Scans (quoted s).toList [.string (some s)] :=
  fun ts => ⟨_, reads_quoted ts s, Scanner.holds_between _⟩

/-- Behind a bracket or a separator the scanner starts afresh. -/
theorem Scans.separate {cs ds : List Char} {new new' : List Token} {c : Char} {t : Token}
    (h : Scans cs new) (hblank : isBlank c = false) (hquote : c ≠ '"')
    (hc : punctuation? c = some t) (h' : Scans ds new') :
    Scans (cs ++ c :: ds) (new ++ t :: new') := by
  intro ts
  obtain ⟨s, hs, hholds⟩ := h ts
  obtain ⟨s', hs', hholds'⟩ := h' (t :: (new.reverse ++ ts))
  refine ⟨s', hs.append (.cons (hholds.step hblank hquote hc) hs'), ?_⟩
  simpa using hholds'

theorem Scans.scan {cs : List Char} {new : List Token} (h : Scans cs new) :
    scan cs = some new := by
  obtain ⟨s, hs, hholds⟩ := h []
  unfold Scanner.Reads at hs
  rw [Token.scan, hs]
  simpa using hholds.finish

/-! ## Bytes -/

/-- Behind some bytes, the characters of a text are read off its encoding. -/
theorem charactersFrom_encoded (b : ByteArray) (cs : List Char) :
    charactersFrom (b ++ cs.utf8Encode) b.size = cs.map some := by
  induction cs generalizing b with
  | nil => rw [charactersFrom, List.utf8Encode_nil, ByteArray.append_empty, if_neg (by omega),
      List.map_nil]
  | cons c cs ih =>
    have hc : [c].utf8Encode.size = c.utf8Size := by
      rw [List.utf8Encode_singleton, List.size_toByteArray, String.length_utf8EncodeChar]
    -- The bytes of the first character join those that are behind.
    have hrest := ih (b ++ [c].utf8Encode)
    rw [ByteArray.append_assoc, ← List.utf8Encode_cons, ByteArray.size_append, hc] at hrest
    have hfirst : (b ++ (c :: cs).utf8Encode).utf8DecodeChar? b.size = some c := by
      rw [ByteArray.utf8DecodeChar?_eq_utf8DecodeChar?_extract, ByteArray.size_append,
        ByteArray.extract_append_eq_right rfl rfl, List.utf8DecodeChar?_utf8Encode_cons]
    have hsize : b.size < (b ++ (c :: cs).utf8Encode).size := by
      have := c.utf8Size_pos
      rw [List.utf8Encode_cons, ByteArray.size_append, ByteArray.size_append, hc]
      omega
    rw [charactersFrom, if_pos hsize, hfirst]
    exact congrArg (some c :: ·) hrest

theorem charactersFrom_toUTF8 (s : String) : charactersFrom s.toUTF8 0 = s.toList.map some := by
  have h := charactersFrom_encoded .empty s.toList
  rw [ByteArray.empty_append, ← String.toByteArray_ofList, String.ofList_toList] at h
  exact h

/-- **The bytes of a text are cut into the tokens of the text.** -/
theorem scanBytes_toUTF8 (s : String) : scanBytes s.toUTF8 = scan s.toList := by
  rw [scanBytes, scan, charactersFrom_toUTF8, List.foldlM_map]
  rfl

end Token

open Token

mutual

theorem scans_compact : ∀ j : Json, j.HasWords → Scans j.compact.toList j.tokens
  | null, _ => scans_bare (by decide) (by decide) (by decide)
  | bool true, _ => scans_bare (by decide) (by decide) (by decide)
  | bool false, _ => scans_bare (by decide) (by decide) (by decide)
  | number n, h =>
    let ⟨hne, hplain, hbare⟩ := bare?_text h
    scans_bare hne hplain hbare
  | string s, _ => scans_quoted s
  | array items, h => by
    have := scans_compactItems items h
    simpa [compact, tokens, String.toList_append] using
      scans_nil.separate (c := '[') (by decide) (by decide) rfl
        (this.separate (c := ']') (by decide) (by decide) rfl scans_nil)
  | object fields, h => by
    have := scans_compactFields fields h
    simpa [compact, tokens, String.toList_append] using
      scans_nil.separate (c := '{') (by decide) (by decide) rfl
        (this.separate (c := '}') (by decide) (by decide) rfl scans_nil)

theorem scans_compactItems : ∀ items : List Json, ItemsHaveWords items →
    Scans (compactItems items).toList (itemTokens items)
  | [], _ => scans_nil
  | [j], h => scans_compact j h.1
  | j :: k :: r, h => by
    have := scans_compactItems (k :: r) h.2
    simpa [compactItems, itemTokens, String.toList_append] using
      (scans_compact j h.1).separate (c := ',') (by decide) (by decide) rfl this

theorem scans_compactFields : ∀ fields : List (String × Json), FieldsHaveWords fields →
    Scans (compactFields fields).toList (fieldTokens fields)
  | [], _ => scans_nil
  | [(name, j)], h => by
    simpa [compactFields, fieldTokens, String.toList_append] using
      (scans_quoted name).separate (c := ':') (by decide) (by decide) rfl (scans_compact j h.1)
  | (name, j) :: f :: r, h => by
    have := scans_compactFields (f :: r) h.2
    simpa [compactFields, fieldTokens, String.toList_append] using
      (scans_quoted name).separate (c := ':') (by decide) (by decide) rfl
        ((scans_compact j h.1).separate (c := ',') (by decide) (by decide) rfl this)

end

/-- **Scanning what was written gives the tokens of the value.** -/
theorem scan_compact {j : Json} (h : j.HasWords) : scan j.compact.toList = some j.tokens :=
  (scans_compact j h).scan

end AppRegistry.Json
