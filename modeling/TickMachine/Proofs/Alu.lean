import TickMachine.Alu

/-! The arithmetic unit through exact integers: an operation has a result if and only if the exact
one fits a register, and then that is the result. -/

namespace TickMachine

theorem Numeric.signed64?_eq_some_iff {n : Int} {v : Int64} :
    signed64? n = some v ↔ v.toInt = n := by
  constructor
  · exact toInt_of_signed64?
  · rintro rfl
    exact signed64?_toInt v

namespace Alu

variable {left right v : Int64}

theorem represent_eq_ok_iff {op : Operation} {n : Int} :
    represent op left right n = .ok v ↔ v.toInt = n := by
  rw [represent, ← Numeric.signed64?_eq_some_iff]
  cases Numeric.signed64? n <;> simp

@[simp] theorem compute_cmp : compute .cmp left right = .ok (if left = right then 0 else 1) := rfl

@[simp] theorem compute_add_eq_ok_iff :
    compute .add left right = .ok v ↔ v.toInt = left.toInt + right.toInt := represent_eq_ok_iff

@[simp] theorem compute_mul_eq_ok_iff :
    compute .mul left right = .ok v ↔ v.toInt = left.toInt * right.toInt := represent_eq_ok_iff

@[simp] theorem compute_mod_eq_ok_iff :
    compute .mod left right = .ok v ↔
      right ≠ 0 ∧ v.toInt = left.toInt.fmod right.toInt := by
  by_cases h : right = 0
  · simp [compute, h]
  · simp [compute, h, represent_eq_ok_iff]

theorem flagAfter_cmp {flag : Bool} :
    flagAfter flag (if left = right then 0 else 1) = decide (left = right) := by
  by_cases h : left = right <;> simp [flagAfter, h]

end Alu
end TickMachine
