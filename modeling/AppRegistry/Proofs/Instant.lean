import AppRegistry.Instant
import AppRegistry.Proofs.Json.Codecs
import Mathlib.Algebra.Group.Nat.Defs

/-!
# Instants are read back

The reader of instants is lenient, but on what `Instant.text` writes it has no choice: every part is
a run of digits of known width or ends where the next mark begins.

Main result: `Instant.ofText?_text`.
-/

namespace AppRegistry

namespace Instant

/-! ## Digits -/

/-- The digits of a number with zeros in front, up to a width. -/
def paddedDigits (width n : Nat) : List Char := List.leftpad width '0' (Nat.toDigits 10 n)

theorem toList_padded (width n : Nat) : (padded width n).toList = paddedDigits width n :=
  String.toList_ofList

theorem isDigit_of_mem_paddedDigits {width n : Nat} {c : Char} (h : c ∈ paddedDigits width n) :
    c.isDigit = true := by
  rcases List.mem_append.mp h with h | h
  · rw [(List.mem_replicate.mp h).2]
    rfl
  · exact Nat.isDigit_of_mem_toDigits (by decide) (by decide) h

theorem length_paddedDigits {width n : Nat} (hw : 0 < width) (hn : n < 10 ^ width) :
    (paddedDigits width n).length = width := by
  have hlen : (Nat.toDigits 10 n).length ≤ width :=
    (Nat.length_toDigits_le_iff (by decide) hw).mpr hn
  rw [paddedDigits, List.length_leftpad]
  omega

theorem paddedDigits_ne_nil (width n : Nat) : paddedDigits width n ≠ [] := by
  intro h
  exact Nat.toDigits_ne_nil (List.append_eq_nil_iff.mp h).2

theorem valueOf_paddedDigits (width n : Nat) : Reader.valueOf (paddedDigits width n) = n := by
  show Nat.ofDigitChars 10 (List.replicate _ '0' ++ Nat.toDigits 10 n) 0 = n
  rw [Nat.ofDigitChars_append, Nat.ofDigitChars_replicate_zero, Nat.mul_zero]
  exact Nat.ofDigitChars_toDigits (b := 10) (by decide) (by decide)

theorem not_isBlank_of_isDigit {c : Char} (h : c.isDigit = true) : isBlank c = false := by
  simp only [Char.isDigit, Bool.and_eq_true, decide_eq_true_eq, ge_iff_le,
    UInt32.le_iff_toNat_le] at h
  simp [isBlank, UInt32.le_iff_toNat_le, ← UInt32.toNat_inj] at h ⊢
  omega

namespace Reader

variable {α β : Type}

/-! ## Parts of a text -/

/-- A reader takes something from the front of a text and leaves the rest. -/
def Takes (r : Reader α) (cs : List Char) (a : α) (rest : List Char) : Prop :=
  r.run cs = some (a, rest)

theorem takes_pure (a : α) (cs : List Char) : Takes (pure a) cs a cs := rfl

theorem Takes.bind {r : Reader α} {f : α → Reader β} {cs mid rest : List Char} {a : α} {b : β}
    (h : Takes r cs a mid) (h' : Takes (f a) mid b rest) : Takes (r >>= f) cs b rest := by
  unfold Takes at *
  rw [StateT.run_bind, h]
  exact h'

theorem Takes.discard {r : Reader α} {cs rest : List Char} {a : α} (h : Takes r cs a rest) :
    Takes (Functor.discard r) cs () rest := by
  show (r.run cs).bind (fun p => some ((), p.2)) = _
  rw [h]
  rfl

theorem takes_get (cs : List Char) : Takes get cs cs cs := rfl

theorem takes_set (cs rest : List Char) : Takes (set rest) cs ⟨⟩ rest := rfl

theorem takes_one {p : Char → Bool} {c : Char} (rest : List Char) (hc : p c = true) :
    Takes (one p) (c :: rest) c rest := by
  show (if p c = true then _ else failure : Reader Char).run (c :: rest) = _
  rw [if_pos hc]
  rfl

theorem takes_blanks {c : Char} (rest : List Char) (hc : isBlank c = false) :
    Takes blanks (c :: rest) () (c :: rest) := by
  show some ((), (c :: rest).dropWhile isBlank) = _
  rw [List.dropWhile_cons_of_neg (by simp [hc])]

/-- There are no blanks before digits. -/
theorem takes_blanks_digits {ds : List Char} (rest : List Char)
    (hds : ∀ d ∈ ds, d.isDigit = true) (hne : ds ≠ []) :
    Takes blanks (ds ++ rest) () (ds ++ rest) := by
  cases ds with
  | nil => exact absurd rfl hne
  | cons d ds => exact takes_blanks _ (not_isBlank_of_isDigit (hds d List.mem_cons_self))

theorem takes_mark {c : Char} (rest : List Char) (hc : isBlank c = false) :
    Takes (mark c) (c :: rest) () rest :=
  (takes_blanks rest hc).bind (takes_one rest (beq_self_eq_true c)).discard

theorem takes_digits {width : Nat} {ds : List Char} {c : Char} (rest : List Char)
    (hds : ∀ d ∈ ds, d.isDigit = true) (hne : ds ≠ []) (hw : ds.length ≤ width)
    (hc : c.isDigit = false) : Takes (digits width) (ds ++ c :: rest) ds (c :: rest) := by
  have htake : (ds ++ c :: rest).takeWhile Char.isDigit = ds := by
    rw [List.takeWhile_append_of_pos hds, List.takeWhile_cons_of_neg (by simp [hc]),
      List.append_nil]
  refine (takes_get _).bind ?_
  simp only [htake, List.take_of_length_le hw, if_neg hne, List.drop_left]
  exact (takes_set _ _).bind (takes_pure _ _)

section Padded
variable {width n : Nat} {c : Char} (rest : List Char) (hw : 0 < width) (hn : n < 10 ^ width)
  (hc : c.isDigit = false)
include hw hn hc

theorem takes_padded {limit : Nat} (hlimit : width ≤ limit) :
    Takes (digits limit) (paddedDigits width n ++ c :: rest) (paddedDigits width n) (c :: rest) :=
  takes_digits rest (fun _ => isDigit_of_mem_paddedDigits) (paddedDigits_ne_nil width n)
    (Nat.le_trans (Nat.le_of_eq (length_paddedDigits hw hn)) hlimit) hc

theorem takes_number :
    Takes (number width) (paddedDigits width n ++ c :: rest) n (c :: rest) := by
  refine (takes_blanks_digits _ (fun _ => isDigit_of_mem_paddedDigits)
    (paddedDigits_ne_nil width n)).bind ?_
  refine (takes_padded rest hw hn hc (Nat.le_refl width)).bind ?_
  rw [valueOf_paddedDigits]
  exact takes_pure n _

end Padded

/-! ## The parts of an instant -/

/-- A year of four digits has no sign. -/
theorem takes_plainYear {n : Nat} (hn : n < 10 ^ 4) (rest : List Char) :
    Takes year (paddedDigits 4 n ++ '-' :: rest) (n : Int) ('-' :: rest) := by
  have hdigits : ∀ {d}, d ∈ paddedDigits 4 n → d.isDigit = true := isDigit_of_mem_paddedDigits
  have hhead : ∀ {c cs}, paddedDigits 4 n ++ '-' :: rest = c :: cs → c.isDigit = true := by
    intro c cs hcs
    refine hdigits ?_
    cases hp : paddedDigits 4 n with
    | nil => exact absurd hp (paddedDigits_ne_nil 4 n)
    | cons d ds =>
      rw [hp] at hcs
      exact (List.cons.inj hcs).1 ▸ List.mem_cons_self
  refine (takes_blanks_digits _ (fun _ => hdigits) (paddedDigits_ne_nil 4 n)).bind
    ((takes_get _).bind ?_)
  split
  · next hcs => exact absurd (hhead hcs) (by decide)
  · next hcs => exact absurd (hhead hcs) (by decide)
  · refine (takes_padded rest (by decide) hn (by decide) (Nat.le_refl 4)).bind ?_
    rw [valueOf_paddedDigits]
    exact takes_pure _ _

/-- Behind a sign a year may have any number of digits. -/
theorem takes_signedYear (n : Nat) (f : Nat → Int) (rest : List Char) :
    Takes (do return f (valueOf (← digits (paddedDigits 4 n ++ '-' :: rest).length)))
      (paddedDigits 4 n ++ '-' :: rest) (f n) ('-' :: rest) := by
  refine (takes_digits rest (fun _ => isDigit_of_mem_paddedDigits) (paddedDigits_ne_nil 4 n)
    (by simp) (by decide)).bind ?_
  rw [valueOf_paddedDigits]
  exact takes_pure _ _

theorem takes_year (y : Int) (rest : List Char) :
    Takes year ((yearText y).toList ++ '-' :: rest) y ('-' :: rest) := by
  unfold yearText
  split
  · next h =>
    obtain ⟨n, rfl⟩ := Int.eq_ofNat_of_zero_le h.1
    rw [Int.toNat_natCast, toList_padded]
    exact takes_plainYear (by omega) rest
  · split
    · next hpos =>
      obtain ⟨n, rfl⟩ := Int.eq_ofNat_of_zero_le hpos
      rw [String.toList_append, Int.toNat_natCast, toList_padded]
      refine (takes_blanks _ (by decide)).bind ((takes_get _).bind ?_)
      exact (takes_set _ _).bind (takes_signedYear n (fun m => m) rest)
    · next hneg =>
      obtain ⟨n, hn⟩ := Int.eq_ofNat_of_zero_le (a := -y) (by omega)
      obtain rfl : y = -n := by omega
      rw [String.toList_append, Int.neg_neg, Int.toNat_natCast, toList_padded]
      refine (takes_blanks _ (by decide)).bind ((takes_get _).bind ?_)
      exact (takes_set _ _).bind (takes_signedYear n (fun m => -m) rest)

theorem takes_date {d : Date} (h : d.IsValid) (rest : List Char) :
    Takes date ((yearText d.year).toList ++ '-' :: (paddedDigits 2 d.month ++ '-' ::
      (paddedDigits 2 d.day ++ 'T' :: rest))) d ('T' :: rest) := by
  have hmonth : d.month < 10 ^ 2 := Nat.lt_of_le_of_lt h.2.2.2.1 (by decide)
  have hday : d.day < 10 ^ 2 := by
    refine Nat.lt_of_le_of_lt h.2.2.2.2.2 ?_
    unfold daysInMonth
    repeat' split
    all_goals decide
  refine (takes_year _ _).bind ((takes_mark _ (by decide)).bind ?_)
  refine (takes_number _ (by decide) hmonth (by decide)).bind ((takes_mark _ (by decide)).bind ?_)
  exact (takes_number _ (by decide) hday (by decide)).bind (takes_pure _ _)

theorem takes_fraction {n : Nat} (hn : n < 1000000000) :
    Takes fraction ((fractionText n).toList ++ ['Z']) n ['Z'] := by
  -- A fraction in `width` digits stands for its value times a power of ten.
  have hdigits : ∀ width m : Nat, 0 < width → width ≤ 9 → m < 10 ^ width →
      Takes fraction (("." ++ padded width m).toList ++ ['Z']) (m * 10 ^ (9 - width)) ['Z'] := by
    intro width m hw hle hm
    rw [String.toList_append, toList_padded]
    refine (takes_get _).bind ((takes_set _ _).bind ?_)
    refine (takes_padded [] hw hm (by decide) hle).bind ?_
    rw [valueOf_paddedDigits, length_paddedDigits hw hm]
    exact takes_pure _ _
  unfold fractionText
  split
  · next h =>
    subst h
    exact (takes_get _).bind (takes_pure _ _)
  · split
    · next h =>
      have := hdigits 3 (n / 1000000) (by decide) (by decide) (by omega)
      rwa [show n / 1000000 * 10 ^ (9 - 3) = n by omega] at this
    · split
      · next h =>
        have := hdigits 6 (n / 1000) (by decide) (by decide) (by omega)
        rwa [show n / 1000 * 10 ^ (9 - 6) = n by omega] at this
      · have := hdigits 9 n (by decide) (by decide) (by omega)
        rwa [show n * 10 ^ (9 - 9) = n by omega] at this

/-- What follows the seconds does not start with a digit. -/
theorem fractionText_append (n : Nat) : ∃ c rest,
    (fractionText n).toList ++ ['Z'] = c :: rest ∧ c.isDigit = false := by
  have hdot : ∀ s : String, ∃ c rest, ("." ++ s).toList ++ ['Z'] = c :: rest ∧
      c.isDigit = false := fun s => by
    rw [String.toList_append]
    exact ⟨'.', _, rfl, rfl⟩
  unfold fractionText
  split
  · exact ⟨'Z', [], rfl, rfl⟩
  · split
    · exact hdot _
    · split <;> exact hdot _

theorem takes_offset : Takes offset ['Z'] 0 [] := rfl

end Reader

theorem ofLocal?_self (i : Instant) :
    ofLocal? i.date i.minute i.second i.nanosecond 0 = some i := by
  have hminute : ¬ ((i.minute : Int) - 0 < 0) ∧ (i.minute : Int) - 0 < 1440 := by
    have := i.valid.2.1
    omega
  have hof : of? i.date ((i.minute : Int) - 0).toNat i.second i.nanosecond = some i := by
    rw [Int.sub_zero, Int.toNat_natCast, of?, dif_pos i.valid]
  unfold ofLocal?
  rw [if_neg (not_not_intro i.valid.1), if_neg hminute.1, if_pos hminute.2, hof]

theorem Reader.takes_instant (i : Instant) : Reader.Takes Reader.instant i.text.toList i [] := by
  have hhour : i.minute / 60 < 10 ^ 2 := by have := i.valid.2.1; omega
  have hminute : i.minute % 60 < 10 ^ 2 := by omega
  have hsecond : i.second < 10 ^ 2 := by have := i.valid.2.2.1; omega
  have htext : i.text.toList = (yearText i.date.year).toList ++ '-' ::
      (paddedDigits 2 i.date.month ++ '-' :: (paddedDigits 2 i.date.day ++ 'T' ::
      (paddedDigits 2 (i.minute / 60) ++ ':' :: (paddedDigits 2 (i.minute % 60) ++ ':' ::
      (paddedDigits 2 i.second ++ ((fractionText i.nanosecond).toList ++ ['Z'])))))) := by
    simp [text, toList_padded]
  obtain ⟨c, rest, hfraction, hc⟩ := fractionText_append i.nanosecond
  have htime : i.minute / 60 < 24 ∧ i.minute % 60 < 60 := by have := i.valid.2.1; omega
  have hparts : 60 * (i.minute / 60) + i.minute % 60 = i.minute := Nat.div_add_mod i.minute 60
  rw [htext]
  refine (takes_date i.valid.1 _).bind ((takes_one _ (by decide)).discard.bind ?_)
  refine (takes_number _ (by decide) hhour (by decide)).bind ((takes_mark _ (by decide)).bind ?_)
  refine (takes_number _ (by decide) hminute (by decide)).bind ((takes_mark _ (by decide)).bind ?_)
  refine Takes.bind (hfraction ▸ takes_number rest (by decide) hsecond hc) ?_
  refine (takes_fraction i.valid.2.2.2).bind ((takes_blanks _ (by decide)).bind ?_)
  have hend : Takes blanks [] () [] := rfl
  refine takes_offset.bind (hend.bind ?_)
  rw [if_pos htime, hparts, ofLocal?_self]
  rfl

/-- **What is written is read back.** -/
theorem ofText?_text (i : Instant) : ofText? i.text = some i := by
  unfold ofText?
  rw [Reader.takes_instant i]

end Instant

instance : LawfulCodec Instant where
  decode?_arranged i o := by
    show decode? ((Json.string i.text).arranged o) = some i
    rw [Json.arranged_string]
    exact Instant.ofText?_text i

end AppRegistry
