import Mathlib.Data.List.Induction
import Mathlib.Data.Option.Basic
import TickMachine.Json.Token
import TickMachine.Json.Writer
import TickMachine.Proofs.Text.Decimal
import TickMachine.Proofs.Text.Joined

/-! Written integers. Their numerals have no needless zero in front, so they are read back as they
were, and an integer has one numeral only. Those of 64 bits lie far inside the range of a double. -/

namespace TickMachine

open Text

theorem Text.head?_toDigits_ne {n : Nat} (h : 0 < n) : (Nat.toDigits 10 n).head? ≠ some '0' := by
  induction n using Nat.strongRecOn with
  | ind n ih =>
    rcases Nat.lt_or_ge n 10 with hlt | hge
    · rw [Nat.toDigits_of_lt_base hlt]
      have hdigit : ∀ d < 10, 0 < d → [Nat.digitChar d].head? ≠ some '0' := by decide
      exact hdigit n hlt h
    · have hhead := ih (n / 10) (by omega) (by omega)
      rw [Nat.toDigits_of_base_le (by decide) hge, List.head?_append]
      cases hdigits : Nat.toDigits 10 (n / 10) with
      | nil => exact absurd hdigits Nat.toDigits_ne_nil
      | cons c rest => rwa [hdigits] at hhead

theorem Text.digitChar_sub {c : Char} (h : c.isDigit) :
    c.toNat - '0'.toNat < 10 ∧ Nat.digitChar (c.toNat - '0'.toNat) = c := by
  have hzero : '0'.toNat = 48 := rfl
  have hbounds : 48 ≤ c.toNat ∧ c.toNat ≤ 57 := by
    simpa [Char.isDigit, UInt32.le_iff_toNat_le] using h
  have hlt : c.toNat - '0'.toNat < 10 := by omega
  refine ⟨hlt, Char.toNat_inj.1 ?_⟩
  rw [Nat.toNat_digitChar_of_lt_ten hlt]
  omega

theorem Text.toDigits_ofDigitChars {digits : List Char} (hdigit : ∀ c ∈ digits, c.isDigit)
    (hzero : digits = ['0'] ∨ digits ≠ [] ∧ digits.head? ≠ some '0') :
    Nat.toDigits 10 (Nat.ofDigitChars 10 digits 0) = digits := by
  induction digits using List.reverseRecOn with
  | nil => simp at hzero
  | append_singleton digits c ih =>
    rw [List.forall_mem_append, List.forall_mem_singleton] at hdigit
    obtain ⟨hlt, hc⟩ := digitChar_sub hdigit.2
    rw [Nat.ofDigitChars_append, Nat.ofDigitChars_cons, Nat.ofDigitChars_nil]
    cases digits with
    | nil => rw [Nat.ofDigitChars_nil, Nat.mul_zero, Nat.zero_add, Nat.toDigits_of_lt_base hlt, hc,
        List.nil_append]
    | cons first digits =>
      have hhead : first ≠ '0' := by simpa using hzero
      have hinit := ih hdigit.1 (.inr ⟨List.cons_ne_nil _ _, by simpa using hhead⟩)
      have hpos : Nat.ofDigitChars 10 (first :: digits) 0 ≠ 0 := by
        intro hval
        rw [hval] at hinit
        cases hinit
        exact hhead rfl
      rw [Nat.toDigits_of_base_le (by decide) (by omega), Nat.mul_add_div (by decide),
        Nat.mul_add_mod, Nat.div_eq_of_lt hlt, Nat.mod_eq_of_lt hlt, Nat.add_zero, hinit, hc]

namespace Json.Numeral

theorem whole_ofInt (n : Int) : (ofInt n).whole = ['0'] ∨
    (ofInt n).whole ≠ [] ∧ (ofInt n).whole.head? ≠ some '0' := by
  rcases Nat.eq_zero_or_pos n.natAbs with h | h
  · left
    rw [ofInt, h]
    rfl
  · exact .inr ⟨Nat.toDigits_ne_nil, head?_toDigits_ne h⟩

theorem write_ofInt (n : Int) : (ofInt n).write =
    (if n < 0 then ['-'] else []) ++ Nat.toDigits 10 n.natAbs := by
  simp [write, ofInt]

theorem read_whole {whole : List Char} (negative : Bool) (hdigit : ∀ c ∈ whole, c.isDigit)
    (hzero : whole = ['0'] ∨ whole ≠ [] ∧ whole.head? ≠ some '0') :
    read? ((if negative then ['-'] else []) ++ whole) = some ⟨negative, whole, [], none⟩ := by
  have htake : whole.takeWhile Char.isDigit = whole := List.takeWhile_eq_self_iff.2 hdigit
  have hdrop : whole.dropWhile Char.isDigit = [] := by
    have hall := List.takeWhile_append_dropWhile (p := Char.isDigit) (l := whole)
    rwa [htake, List.append_right_eq_self] at hall
  have hguard := (Option.guard_eq_some' ()).2 hzero
  cases negative with
  | true =>
    simp only [read?, if_true, List.singleton_append, htake, hdrop, hguard, exponent?]
    rfl
  | false =>
    simp only [read?, Bool.false_eq_true, if_false, List.nil_append]
    split
    · exact absurd (hdigit '-' (List.mem_cons_self ..)) (by decide)
    · simp only [htake, hdrop, hguard, exponent?]
      rfl

theorem read_write_ofInt (n : Int) : read? (ofInt n).write = some (ofInt n) := by
  have hread := read_whole (decide (n < 0)) (fun c => isDigit_of_mem_toDigits) (whole_ofInt n)
  simp only [decide_eq_true_eq] at hread
  rw [write_ofInt, hread]
  rfl

def IsProper (n : Numeral) : Prop :=
  (∀ c ∈ n.whole, c.isDigit) ∧ (n.whole = ['0'] ∨ n.whole ≠ [] ∧ n.whole.head? ≠ some '0')

theorem isProper_of_read {text : List Char} {n : Numeral} (h : read? text = some n) :
    n.IsProper := by
  simp only [read?, bind, Option.bind_eq_some_iff, Option.guard_eq_some'] at h
  obtain ⟨-, hzero, h⟩ := h
  have hdigit (text : List Char) : ∀ c ∈ text.takeWhile Char.isDigit, c.isDigit :=
    List.all_eq_true.1 List.all_takeWhile
  split at h
  · simp only [Option.bind_eq_some_iff, Option.guard_eq_some'] at h
    obtain ⟨-, -, exponent, -, h⟩ := h
    obtain rfl := Option.some.inj h
    exact ⟨hdigit _, hzero⟩
  · obtain ⟨exponent, -, h⟩ := Option.bind_eq_some_iff.1 h
    obtain rfl := Option.some.inj h
    exact ⟨hdigit _, hzero⟩

theorem toInt?_eq_some_iff {n : Numeral} {k : Int} (hn : n.IsProper) :
    n.toInt? = some k ↔ n = ofInt k := by
  refine ⟨fun h => ?_, fun h => h ▸ toInt?_ofInt k⟩
  have hwhole := toDigits_ofDigitChars hn.1 hn.2
  obtain ⟨negative, whole, fraction, exponent⟩ := n
  simp only [toInt?] at h
  split at h
  · next hplain =>
    obtain ⟨rfl, rfl⟩ := hplain
    cases negative with
    | true =>
      simp only [if_true, ite_eq_iff, reduceCtorEq, and_false, false_or] at h
      obtain ⟨hne, h⟩ := h
      obtain rfl := Option.some.inj h
      simp only [ofInt, Int.natAbs_neg, Int.natAbs_natCast, hwhole]
      simp
      omega
    | false =>
      obtain rfl := Option.some.inj h
      simp only [ofInt, Int.natAbs_natCast, hwhole]
      simp
  · cases h

theorem le_ofDigitChars (digits : List Char) (n : Nat) : n ≤ Nat.ofDigitChars 10 digits n := by
  induction digits generalizing n with
  | nil => exact Nat.le_refl n
  | cons c digits ih =>
    rw [Nat.ofDigitChars_cons]
    have hle := ih (10 * n + (c.toNat - '0'.toNat))
    omega

theorem absorb_eq {digits : List Char} {n : Nat}
    (h : Nat.ofDigitChars 10 digits n < UInt64.size) :
    absorb n digits = (Nat.ofDigitChars 10 digits n, []) := by
  induction digits generalizing n with
  | nil => rfl
  | cons c digits ih =>
    rw [Nat.ofDigitChars_cons] at h
    have hlt := Nat.lt_of_le_of_lt (le_ofDigitChars digits _) h
    simp only [absorb, if_pos hlt]
    exact ih h

theorem roundBits_le (n bits : Nat) : Numeric.roundBits n bits ≤ n + 1 <<< bits := by
  have hdiv := Nat.div_mul_le_self n (1 <<< bits)
  simp only [Numeric.roundBits]
  split
  · omega
  · rw [Nat.add_mul]
    omega

theorem nearestNat_le {n : Nat} (h : n < UInt64.size) : Numeric.nearestNat n ≤ n + 1 <<< 11 := by
  have hlog : n.log2 < 64 := by
    rcases Nat.eq_zero_or_pos n with rfl | hn
    · decide
    · exact (Nat.log2_lt (by omega)).2 h
  have hunit : 1 <<< (n.log2 + 1 - 53) ≤ 1 <<< 11 := by
    rw [Nat.one_shiftLeft, Nat.one_shiftLeft]
    exact Nat.pow_le_pow_right (by decide) (by omega)
  exact Nat.le_trans (roundBits_le n _) (Nat.add_le_add_left hunit n)

theorem isFinite_ofInt {n : Int} (h : n.natAbs < UInt64.size) : (ofInt n).isFinite := by
  have hdigits : Nat.ofDigitChars 10 (Nat.toDigits 10 n.natAbs) 0 = n.natAbs :=
    Nat.ofDigitChars_ten_toDigits
  have habsorb : absorb 0 (Nat.toDigits 10 n.natAbs) = (n.natAbs, []) := by
    rw [absorb_eq (by rwa [hdigits]), hdigits]
  have hrange : Numeric.nearestNat n.natAbs * Numeric.nearestNat (Nat.pow 10 0) <
      Numeric.overflowBound := by
    have hone : Numeric.nearestNat (Nat.pow 10 0) = 1 := by decide
    have hle := nearestNat_le h
    have hbound : UInt64.size + 1 <<< 11 < Numeric.overflowBound := by decide
    rw [hone]
    omega
  simp only [isFinite, ofInt, habsorb, absorb]
  simpa using Or.inr hrange

end Json.Numeral
end TickMachine
