/-! Integers that fit 64 bits, with and without sign: the one place that decides whether a number
has a machine representation. -/

namespace TickMachine.Numeric

def signed64? (n : Int) : Option Int64 :=
  if Int64.minValue.toInt ≤ n ∧ n ≤ Int64.maxValue.toInt then some (Int64.ofInt n) else none

def unsigned64? (n : Int) : Option UInt64 :=
  if 0 ≤ n ∧ n < UInt64.size then some (UInt64.ofNat n.toNat) else none

@[simp] theorem signed64?_toInt (v : Int64) : signed64? v.toInt = some v := by
  rw [signed64?, if_pos ⟨v.minValue_le_toInt, v.toInt_le⟩, Int64.ofInt_toInt]

@[simp] theorem unsigned64?_toNat (v : UInt64) : unsigned64? v.toNat = some v := by
  have h : (v.toNat : Int) < UInt64.size := Int.ofNat_lt.2 v.toNat_lt_size
  rw [unsigned64?, if_pos ⟨Int.natCast_nonneg _, h⟩]
  simp

theorem toInt_of_signed64? {n : Int} {v : Int64} (h : signed64? n = some v) : v.toInt = n := by
  rw [signed64?] at h
  split at h
  · next hn =>
    obtain rfl := Option.some.inj h
    exact Int64.toInt_ofInt_of_le hn.1 (Int.lt_of_le_sub_one hn.2)
  · cases h

theorem signed64?_eq_none_iff {n : Int} :
    signed64? n = none ↔ n < Int64.minValue.toInt ∨ Int64.maxValue.toInt < n := by
  rw [signed64?]
  split
  · simp only [reduceCtorEq, false_iff]
    omega
  · simp only [true_iff]
    omega

end TickMachine.Numeric
