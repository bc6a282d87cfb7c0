import TickMachine.Text.Decimal

/-! Printed integers are read back as what they were. -/

namespace TickMachine.Text

theorem digits?_of_not_digit {text : List Char} {c : Char} (hc : c ∈ text)
    (h : c.isDigit = false) : digits? text = none := by
  rw [digits?, if_neg]
  intro hall
  have hdigit := List.all_eq_true.1 hall.2 c hc
  rw [h] at hdigit
  cases hdigit

theorem isDigit_of_mem_toDigits {n : Nat} {c : Char} (h : c ∈ Nat.toDigits 10 n) : c.isDigit :=
  Nat.isDigit_of_mem_toDigits (by decide) (by decide) h

theorem signed?_toDigits (n : Nat) : signed? (Nat.toDigits 10 n) = some (n : Int) := by
  have hdigits := digits?_toDigits n
  have hdigit : ∀ c ∈ Nat.toDigits 10 n, c.isDigit := fun c => isDigit_of_mem_toDigits
  unfold signed?
  split
  · next text htext =>
    rw [htext] at hdigit
    exact absurd (hdigit '-' (List.mem_cons_self ..)) (by decide)
  · next text htext =>
    rw [htext] at hdigit
    exact absurd (hdigit '+' (List.mem_cons_self ..)) (by decide)
  · rw [hdigits]
    rfl

theorem toList_toString (n : Int) : (toString n).toList =
    if 0 ≤ n then Nat.toDigits 10 n.toNat else '-' :: Nat.toDigits 10 (-n).toNat := by
  rw [Int.toString_eq_repr, Int.repr_eq_if]
  split
  · exact Nat.toList_repr
  · rw [String.toList_append, Nat.toList_repr]
    rfl

theorem signed?_toString (n : Int) : signed? (toString n).toList = some n := by
  rw [toList_toString]
  split
  · next h =>
    rw [signed?_toDigits, Int.toNat_of_nonneg h]
  · next h =>
    have hneg : ((-n).toNat : Int) = -n := Int.toNat_of_nonneg (by omega)
    rw [signed?, digits?_toDigits]
    show some (-((-n).toNat : Int)) = some n
    rw [hneg, Int.neg_neg]

theorem int64?_toString (v : Int64) : int64? (toString v.toInt).toList = some v := by
  rw [int64?, signed?_toString]
  exact Numeric.signed64?_toInt v

end TickMachine.Text
