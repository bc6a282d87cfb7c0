import Mathlib.Data.Int.ModEq
import TickMachine.Proofs.DataPath.Actions

/-! The arithmetic unit as the data path runs it: sums and products are exact or refused, a
remainder is never refused but for a divisor of 0, and the flag follows from the result alone. The
remainder is also computed step by step in machine values, and no step on the way overflows. -/

namespace TickMachine

namespace Alu

variable {op : Operation} {left right v : Int64} {n m a b : Int}

def Fits (n : Int) : Prop := -2 ^ 63 ≤ n ∧ n ≤ 2 ^ 63 - 1

theorem fits_toInt (v : Int64) : Fits v.toInt := ⟨v.le_toInt, v.toInt_le⟩

theorem exists_toInt_eq (h : Fits n) : ∃ v : Int64, v.toInt = n :=
  ⟨Int64.ofInt n, Int64.toInt_ofInt_of_le h.1 (Int.lt_of_le_sub_one h.2)⟩

theorem represent_of_not_fits (h : ¬ Fits n) :
    represent op left right n = .error (.overflow op left right) := by
  cases hn : represent op left right n with
  | ok v =>
    rw [← represent_eq_ok_iff.1 hn] at h
    exact absurd (fits_toInt v) h
  | error e =>
    unfold represent at hn
    split at hn
    · cases hn
    · exact hn.symm

/-! ### The remainder with the sign of the divisor -/

def IsRemainder (divisor n : Int) : Prop := 0 ≤ n ∧ n < divisor ∨ divisor < n ∧ n ≤ 0

theorem IsRemainder.eq_of_modEq (hm : IsRemainder b m) (hn : IsRemainder b n)
    (h : Int.ModEq b m n) : m = n := by
  have hlt : (n - m).natAbs < b.natAbs := by
    unfold IsRemainder at hm hn
    omega
  have hzero := Int.eq_zero_of_dvd_of_natAbs_lt_natAbs h.dvd hlt
  omega

theorem fmod_modEq (a b : Int) : Int.ModEq b (a.fmod b) a :=
  Int.modEq_iff_dvd.2 Int.dvd_self_sub_fmod

theorem isRemainder_fmod (hb : b ≠ 0) : IsRemainder b (a.fmod b) := by
  rcases Int.lt_or_gt_of_ne hb with hneg | hpos
  · exact .inr ((Int.fdiv_fmod_unique' hneg).1 ⟨rfl, rfl⟩).2
  · exact .inl ⟨Int.fmod_nonneg_of_pos a hpos, Int.fmod_lt_of_pos a hpos⟩

theorem IsRemainder.fits {divisor : Int64} (h : IsRemainder divisor.toInt n) : Fits n := by
  have hdivisor := fits_toInt divisor
  unfold IsRemainder Fits at *
  omega

def truncatedMod? (left right : Int64) : Option Int64 :=
  if right = 0 ∨ left = Int64.minValue ∧ right = -1 then none else some (left % right)

/-- The remainder in machine values: a rest on the wrong side of 0 is moved by the divisor, if the
sum fits. -/
def flooredMod? (left right : Int64) : Option Int64 :=
  let rest := (truncatedMod? left right).getD 0
  if rest ≠ 0 ∧ decide (rest < 0) ≠ decide (right < 0) then
    Numeric.signed64? (rest.toInt + right.toInt)
  else some rest

theorem toInt_truncatedMod (left : Int64) (h : right ≠ 0) :
    ((truncatedMod? left right).getD 0).toInt = left.toInt.tmod right.toInt := by
  rw [truncatedMod?]
  split
  · next hnone =>
    obtain ⟨rfl, rfl⟩ := hnone.resolve_left h
    decide
  · exact Int64.toInt_mod left right

theorem fmod_eq_of_tmod (hb : b ≠ 0) : a.fmod b =
    if a.tmod b ≠ 0 ∧ decide (a.tmod b < 0) ≠ decide (b < 0) then a.tmod b + b else a.tmod b := by
  have hlt : (a.tmod b).natAbs < b.natAbs := by
    rw [Int.natAbs_tmod]
    exact Nat.mod_lt _ (Int.natAbs_pos.2 hb)
  have hmod : Int.ModEq b (a.tmod b) a := Int.modEq_iff_dvd.2 Int.dvd_self_sub_tmod
  have hfloor := fmod_modEq a b
  refine (isRemainder_fmod hb).eq_of_modEq ?_ (hfloor.trans ?_)
  · unfold IsRemainder
    split <;> grind
  · split
    · exact hmod.symm.trans Int.add_modEq_right.symm
    · exact hmod.symm

theorem exists_flooredMod?_eq (left : Int64) (h : right ≠ 0) :
    ∃ v, flooredMod? left right = some v ∧ v.toInt = left.toInt.fmod right.toInt := by
  have hb : right.toInt ≠ 0 := fun h0 => h (Int64.toInt_inj.1 h0)
  have hrest := toInt_truncatedMod left h
  have hfloor := fmod_eq_of_tmod (a := left.toInt) hb
  have hfits : Fits (left.toInt.fmod right.toInt) := (isRemainder_fmod hb).fits
  simp only [flooredMod?, ne_eq, ← Int64.toInt_inj, Int64.lt_iff_toInt_lt, hrest,
    Int64.toInt_zero] at hfloor ⊢
  rw [hfloor] at hfits ⊢
  split
  · next hside =>
    rw [if_pos hside] at hfits
    obtain ⟨v, hv⟩ := exists_toInt_eq hfits
    exact ⟨v, hv ▸ Numeric.signed64?_toInt v, hv⟩
  · exact ⟨_, rfl, hrest⟩

theorem compute_mod_of_ne (left : Int64) (h : right ≠ 0) : ∃ v, compute .mod left right = .ok v ∧
    flooredMod? left right = some v ∧ v.toInt = left.toInt.fmod right.toInt := by
  obtain ⟨v, hv, hfloor⟩ := exists_flooredMod?_eq left h
  exact ⟨v, compute_mod_eq_ok_iff.2 ⟨h, hfloor⟩, hv, hfloor⟩

theorem compute_mod_zero : compute .mod left 0 = .error (.divisionByZero left) := rfl

end Alu

namespace DataPath

variable {d : DataPath} {op : Operation} {left right : Int64} {n : Int}

theorem alu_represent (h : Alu.compute op left right = Alu.represent op left right n) :
    (Alu.Fits n → ∃ v : Int64, v.toInt = n ∧ alu op left right d = .ok v (d.latchFlag v)) ∧
      (¬ Alu.Fits n → alu op left right d = .error (.alu (.overflow op left right)) d) := by
  refine ⟨fun hfits => ?_, fun hfits => ?_⟩
  · obtain ⟨v, hv⟩ := Alu.exists_toInt_eq hfits
    exact ⟨v, hv, alu_eq_ok_iff.2 ⟨h.trans (Alu.represent_eq_ok_iff.2 hv), rfl⟩⟩
  · exact alu_eq_error_iff.2 ⟨_, h.trans (Alu.represent_of_not_fits hfits), rfl, rfl⟩

/-- Sums and products are exact or refused. The remainder by a divisor other than 0 is the one
integer that is congruent to the dividend and lies on the side of the divisor, and no step of its
computation overflows. A comparison tells equal operands from others. The result decides the flag if
it is 0 or 1 and leaves it otherwise, as every fault does. -/
theorem alu_exact_or_refused (d : DataPath) (left right : Int64) :
    (∀ op n, op = .add ∧ n = left.toInt + right.toInt ∨ op = .mul ∧ n = left.toInt * right.toInt →
      (Alu.Fits n → ∃ v : Int64, v.toInt = n ∧ alu op left right d = .ok v (d.latchFlag v)) ∧
      (¬ Alu.Fits n → alu op left right d = .error (.alu (.overflow op left right)) d)) ∧
    (right ≠ 0 → ∃ v, alu .mod left right d = .ok v (d.latchFlag v) ∧
      Alu.flooredMod? left right = some v ∧
      ∀ n, n = v.toInt ↔ Int.ModEq right.toInt n left.toInt ∧ Alu.IsRemainder right.toInt n) ∧
    (right = 0 → alu .mod left right d = .error (.alu (.divisionByZero left)) d) ∧
    (∃ v, alu .cmp left right d = .ok v (d.latchFlag v) ∧ (left = right → v = 0) ∧
      (left ≠ right → v = 1)) ∧
    ∀ v, d.latchFlag v =
      { d with isZero := if v = 0 then true else if v = 1 then false else d.isZero } := by
  refine ⟨?_, fun hne => ?_, ?_, ?_, fun v => rfl⟩
  · rintro op n (⟨rfl, rfl⟩ | ⟨rfl, rfl⟩)
    · exact alu_represent rfl
    · exact alu_represent rfl
  · obtain ⟨v, hv, hsteps, hfloor⟩ := Alu.compute_mod_of_ne left hne
    have hdivisor : right.toInt ≠ 0 := fun h0 => hne (Int64.toInt_inj.1 h0)
    have hmod := Alu.fmod_modEq left.toInt right.toInt
    have hrem := Alu.isRemainder_fmod (a := left.toInt) hdivisor
    refine ⟨v, alu_eq_ok_iff.2 ⟨hv, rfl⟩, hsteps, fun n => ⟨?_, fun hn => ?_⟩⟩
    · rintro rfl
      rw [hfloor]
      exact ⟨hmod, hrem⟩
    · rw [hfloor]
      exact hn.2.eq_of_modEq hrem (hn.1.trans hmod.symm)
  · rintro rfl
    exact alu_eq_error_iff.2 ⟨_, Alu.compute_mod_zero, rfl, rfl⟩
  · exact ⟨_, alu_eq_ok_iff.2 ⟨Alu.compute_cmp, rfl⟩, fun h => if_pos h, fun h => if_neg h⟩

theorem alu_exact_or_refused_extremes :
    alu .add Int64.maxValue 1 (.start #[] 1 []) =
      .error (.alu (.overflow .add Int64.maxValue 1)) (.start #[] 1 []) ∧
    ∃ v, alu .mod Int64.minValue (-1) (.start #[] 1 []) =
      .ok v (latchFlag (.start #[] 1 []) v) ∧ 0 = v.toInt := by
  refine ⟨((alu_exact_or_refused _ _ _).1 .add _ (.inl ⟨rfl, rfl⟩)).2 ?_, ?_⟩
  · rintro ⟨-, hle⟩
    exact absurd hle (by decide)
  · obtain ⟨v, hv, -, hrem⟩ := (alu_exact_or_refused (.start #[] 1 []) Int64.minValue (-1)).2.1
      (by decide)
    refine ⟨v, hv, (hrem 0).2 ⟨?_, .inr ⟨by decide, by decide⟩⟩⟩
    rfl

end DataPath
end TickMachine
