import AppRegistry.Proofs.Records.Ranges
import AppRegistry.Registry.Layout
import Mathlib.Algebra.Group.Nat.Defs

/-!
# The order of written start times

A start time is written in 16 hexadecimal digits, and texts of one width are compared digit by
digit. So the written times descend as the times ascend.

**Theorem (`Layout.descending_encoding`).** A time is written as the complement of its bits with the
sign bit flipped, in 16 lower-case hexadecimal digits. The written times descend strictly, so an
interval of texts holds just the times of an interval of times.

`Layout.isValid_descending` says that a written time can stand in a key.
-/

namespace AppRegistry

theorem compare_eq_lt_iff_lt {s t : String} : compare s t = .lt ↔ s < t := compareOfLessAndEq_eq_lt

/-- Lists of one length are compared at their last members once the others agree. -/
theorem append_singleton_lt_iff {l m : List Char} (h : l.length = m.length) {c d : Char} :
    l ++ [c] < m ++ [d] ↔ l < m ∨ l = m ∧ c < d := by
  induction l generalizing m with
  | nil =>
    obtain rfl := List.length_eq_zero_iff.mp h.symm
    simp [List.cons_lt_cons_iff]
  | cons a l ih =>
    cases m with
    | nil => cases h
    | cons b m =>
      have := ih (Nat.succ.inj h)
      simp only [List.cons_append, List.cons_lt_cons_iff, this, List.cons.injEq]
      grind

namespace Layout

/-! ## Digits of one width -/

theorem length_fixedHex (width n : Nat) : (fixedHex width n).length = width := by
  induction width generalizing n with
  | zero => rfl
  | succ width ih => rw [fixedHex, List.length_append, ih, List.length_singleton]

theorem digitChar_lt_iff : ∀ m < 16, ∀ n < 16, (Nat.digitChar m < Nat.digitChar n ↔ m < n) := by
  decide

theorem exists_digitChar_of_mem {width n : Nat} {c : Char} (h : c ∈ fixedHex width n) :
    ∃ d < 16, c = Nat.digitChar d := by
  induction width generalizing n with
  | zero => cases h
  | succ width ih =>
    rcases List.mem_append.mp h with h | h
    · exact ih h
    · exact ⟨n % 16, Nat.mod_lt n (by decide), List.mem_singleton.mp h⟩

theorem mem_digits_of_mem {width n : Nat} {c : Char} (h : c ∈ fixedHex width n) :
    c ∈ "0123456789abcdef".toList := by
  have hdigits : ∀ d < 16, Nat.digitChar d ∈ "0123456789abcdef".toList := by decide
  obtain ⟨d, hd, rfl⟩ := exists_digitChar_of_mem h
  exact hdigits d hd

theorem fixedHex_lt_iff {width m n : Nat} (hm : m < 16 ^ width) (hn : n < 16 ^ width) :
    fixedHex width m < fixedHex width n ↔ m < n := by
  induction width generalizing m n with
  | zero => simp [fixedHex]; omega
  | succ width ih =>
    have hlast := digitChar_lt_iff (m % 16) (Nat.mod_lt m (by decide)) (n % 16)
      (Nat.mod_lt n (by decide))
    have hlt := ih (m := m / 16) (n := n / 16) (by omega) (by omega)
    have hgt := ih (m := n / 16) (n := m / 16) (by omega) (by omega)
    have heq : fixedHex width (m / 16) = fixedHex width (n / 16) ↔ m / 16 = n / 16 := by
      refine ⟨fun h => ?_, fun h => h ▸ rfl⟩
      have hle : ¬ m / 16 < n / 16 := fun hmn => List.lt_irrefl _ (h ▸ hlt.mpr hmn)
      have hge : ¬ n / 16 < m / 16 := fun hnm => List.lt_irrefl _ (h ▸ hgt.mpr hnm)
      omega
    rw [fixedHex, fixedHex, append_singleton_lt_iff (by rw [length_fixedHex, length_fixedHex]),
      hlt, heq, hlast]
    omega

theorem fixedHex_zero (width : Nat) : fixedHex width 0 = List.replicate width '0' := by
  induction width with
  | zero => rfl
  | succ width ih =>
    rw [fixedHex, ih, List.replicate_succ']
    rfl

/-- The digits of a number, filled up with zeros in front. -/
theorem fixedHex_eq_leftpad {width n : Nat} (hwidth : 0 < width) (hn : n < 16 ^ width) :
    fixedHex width n = (Nat.toDigits 16 n).leftpad width '0' := by
  induction width generalizing n with
  | zero => cases hwidth
  | succ width ih =>
    rw [fixedHex]
    by_cases hsmall : n < 16
    · rw [Nat.toDigits_of_lt_base hsmall, Nat.div_eq_of_lt hsmall, Nat.mod_eq_of_lt hsmall,
        fixedHex_zero]
      rfl
    · have hpos : 0 < width := by
        rcases Nat.eq_zero_or_pos width with rfl | hpos
        · exact absurd hn hsmall
        · exact hpos
      rw [ih hpos (Nat.div_lt_of_lt_mul (by omega)),
        Nat.toDigits_of_base_le (by decide) (Nat.le_of_not_lt hsmall)]
      simp [List.leftpad]

/-! ## Times -/

/-- How many units a time lies before the latest one. -/
def remaining (time : Int64) : Nat := (9223372036854775807 - time.toInt).toNat

theorem remaining_lt (time : Int64) : remaining time < 16 ^ 16 := by
  have := time.le_toInt
  unfold remaining
  omega

theorem toList_descending (time : Int64) :
    (descending time).toList = fixedHex 16 (remaining time) := String.toList_ofList

/-- **Written times descend.** -/
theorem descending_lt_iff {a b : Int64} : descending a < descending b ↔ b < a := by
  have ha := a.toInt_lt
  have hb := b.toInt_lt
  rw [String.lt_iff, toList_descending, toList_descending,
    fixedHex_lt_iff (remaining_lt a) (remaining_lt b), Int64.lt_iff_toInt_lt, remaining, remaining]
  omega

theorem descending_inj {a b : Int64} : descending a = descending b ↔ a = b := by
  refine ⟨fun h => ?_, fun h => h ▸ rfl⟩
  have hab : ¬ a < b := by
    rw [← descending_lt_iff, h]
    exact String.lt_irrefl _
  have hba : ¬ b < a := by
    rw [← descending_lt_iff, h]
    exact String.lt_irrefl _
  rw [Int64.lt_iff_toInt_lt] at hab hba
  exact Int64.toInt_inj.mp (by omega)

theorem descending_le_iff {a b : Int64} : descending a ≤ descending b ↔ b ≤ a := by
  rw [← String.not_lt, descending_lt_iff, Int64.not_lt]

theorem isLE_compare_descending {a b : Int64} :
    (compare (descending a) (descending b)).isLE = true ↔ b ≤ a := by
  have hgt : compare (descending a) (descending b) = .gt ↔ a < b := by
    rw [Std.OrientedCmp.gt_iff_lt, compare_eq_lt_iff_lt, descending_lt_iff]
  rw [← Int64.not_lt, ← hgt]
  cases compare (descending a) (descending b) <;> simp

/-- Bounds on the texts are bounds on the times. -/
theorem admits_descending_iff {k : Key} {low high time : Int64} :
    (KeyRange.between k (descending high) (descending low)).admits (descending time) = true ↔
      low ≤ time ∧ time ≤ high := by
  rw [KeyRange.admits_iff, ← isLE_compare_descending, ← isLE_compare_descending (a := high)]
  simp [KeyRange.between, and_comm]

theorem isValid_descending (time : Int64) : Component.IsValid (descending time) := by
  have hplain : ∀ d < 16,
      Nat.digitChar d ≠ '.' ∧ Component.isForbidden (Nat.digitChar d) = false := by
    decide
  unfold Component.IsValid
  rw [toList_descending]
  refine ⟨?_, ?_, ?_⟩
  · exact List.ne_nil_of_length_pos (by rw [length_fixedHex]; decide)
  · intro h
    obtain ⟨d, hd, hc⟩ := exists_digitChar_of_mem (List.mem_of_mem_head? h)
    exact (hplain d hd).1 hc.symm
  · intro c hc
    obtain ⟨d, hd, rfl⟩ := exists_digitChar_of_mem hc
    exact (hplain d hd).2

/-! ## The bits of a time -/

/-- A time as a word that ascends with it: its sign bit is flipped. -/
def ascending (time : Int64) : UInt64 := time.toUInt64 ^^^ ((1 : UInt64) <<< 63)

/-- To flip the top bit of a word is to move by half of all words. -/
theorem xor_topBit {n : Nat} (h : n < 2 ^ 64) :
    n ^^^ 2 ^ 63 = if n < 2 ^ 63 then n + 2 ^ 63 else n - 2 ^ 63 := by
  have hlow : (n ^^^ 2 ^ 63) % 2 ^ 63 = n % 2 ^ 63 := by
    rw [Nat.xor_mod_two_pow, Nat.mod_self, Nat.xor_zero]
  have htop : (n ^^^ 2 ^ 63) / 2 ^ 63 = n / 2 ^ 63 ^^^ 1 := Nat.xor_div_two_pow
  obtain hbit | hbit : n / 2 ^ 63 = 0 ∨ n / 2 ^ 63 = 1 := by omega
  · rw [hbit, Nat.zero_xor] at htop
    split <;> omega
  · rw [hbit, Nat.xor_self] at htop
    split <;> omega

theorem toNat_ascending (time : Int64) :
    ((ascending time).toNat : Int) = time.toInt + (2 ^ 63 : Nat) := by
  have hword := time.toUInt64.toNat_lt
  have htime : time.toInt = if 2 * time.toUInt64.toNat < 2 ^ 64 then (time.toUInt64.toNat : Int)
      else time.toUInt64.toNat - (2 ^ 64 : Nat) := BitVec.toInt_eq_toNat_cond time.toBitVec
  have htop : ((1 : UInt64) <<< 63).toNat = 2 ^ 63 := by decide
  rw [ascending, UInt64.toNat_xor, htop, xor_topBit hword]
  split <;> split at htime <;> omega

/-- What lies between a time and the latest one is the complement of the ascending word. -/
theorem remaining_eq_complement (time : Int64) : remaining time = (~~~ascending time).toNat := by
  have hword := (ascending time).toNat_lt
  have htime := toNat_ascending time
  rw [remaining, UInt64.toNat_not, UInt64.size]
  omega

/-- **Times are written in 16 lower-case hexadecimal digits that descend.** The digits are those of
the complement of the ascending word, the order of the texts is the reverse of that of the times, and
no two times share a text. So the texts from that of `high` to that of `low` are those of the times
from `low` to `high`, which are none if `high` is the earlier one. -/
theorem descending_encoding :
    (∀ time, descending time =
      String.ofList ((Nat.toDigits 16 (~~~ascending time).toNat).leftpad 16 '0')) ∧
    (∀ time, (descending time).length = 16 ∧
      (descending time).toList ⊆ "0123456789abcdef".toList) ∧
    (∀ a b, descending a < descending b ↔ b < a) ∧
    (∀ a b, descending a = descending b ↔ a = b) ∧
    ∀ low high time,
      (descending high ≤ descending time ∧ descending time ≤ descending low ↔
        low ≤ time ∧ time ≤ high) ∧
      ∀ base, (KeyRange.between base (descending high) (descending low)).admits
        (descending time) = true ↔ low ≤ time ∧ time ≤ high := by
  refine ⟨fun time => ?_, fun time => ⟨?_, fun c hc => ?_⟩, fun a b => descending_lt_iff,
    fun a b => descending_inj, fun low high time => ⟨?_, fun base => admits_descending_iff⟩⟩
  · rw [← remaining_eq_complement, ← fixedHex_eq_leftpad (by decide) (remaining_lt time)]
    rfl
  · rw [← String.length_toList, toList_descending, length_fixedHex]
  · rw [toList_descending] at hc
    exact mem_digits_of_mem hc
  · rw [descending_le_iff, descending_le_iff, and_comm]

example : descending Int64.maxValue = "0000000000000000" ∧
    descending Int64.minValue = "ffffffffffffffff" := by decide

end Layout

end AppRegistry
