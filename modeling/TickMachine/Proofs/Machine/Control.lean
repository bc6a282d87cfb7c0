import TickMachine.Proofs.DataPath.Faults
import TickMachine.Proofs.Machine.MicroProgram

/-! The instructions without a micro-program. A halt changes nothing, a jump goes to its target or
to the next word, and all of them fail, if they do, before they have changed anything. -/

namespace TickMachine

def Opcode.isJump : Opcode → Bool
  | .jmp | .jz | .jzR => true
  | _ => false

namespace Machine

open DataPath

variable {w : Word} {m : Machine}

section
variable {α : Type} {action : DataPath.Action α} {Q : α → Machine → Prop}
  {E : Fault → Machine → Prop}

@[simp] theorem ends_signal : Ends (signal action) m Q E ↔
    Ends action m.path (fun x d => Q x { m with path := d })
      fun e d => E (.path e) { m with path := d } := by
  simp only [Ends, signal_eq_ok_iff, signal_eq_error_iff, later_zero]
  constructor
  · exact fun h => ⟨fun x d hd => h.1 x _ ⟨d, hd, rfl⟩, fun e d hd => h.2 _ _ ⟨e, d, hd, rfl, rfl⟩⟩
  · intro hends
    rcases hends with ⟨hQ, hE⟩
    refine ⟨?_, ?_⟩
    · rintro x _ ⟨d, hd, rfl⟩
      exact hQ x d hd
    · rintro _ _ ⟨e, d, hd, rfl, rfl⟩
      exact hE e d hd

end

section
variable {Q : UInt64 → Machine → Prop} {R : Unit → Machine → Prop} {E : Fault → Machine → Prop}
  {target : UInt64}

@[simp] theorem ends_jumpTarget : Ends (jumpTarget w) m Q E ↔
    (∀ v, w.arg? 0 = some v → 0 ≤ v.toInt → Q (UInt64.ofNat v.toInt.toNat) m) ∧
    (∀ v, w.arg? 0 = some v → v.toInt < 0 → E (.badJumpTarget w.index v) m) ∧
    (w.arg? 0 = none → E (.path (.missingOperand w.index w.opcode 0)) m) := by
  rw [jumpTarget, ends_bind, ends_signal, ends_operand, ← and_assoc]
  refine and_congr_left' ?_
  rw [← forall_and]
  refine forall_congr' fun v => ?_
  by_cases h : v.toInt < 0
  · simp [h, Int.not_le.2 h]
  · simp [h, Int.not_lt.1 h]

@[simp] theorem ends_passTick :
    Ends passTick m R E ↔ R () { m with tick := m.tick + 1 } := ends_modify

@[simp] theorem ends_advance :
    Ends advance m R E ↔ R () { m with counter := m.counter + 1 } := ends_modify

@[simp] theorem ends_jump :
    Ends (jump target) m R E ↔ R () { m with counter := target } := ends_modify

@[simp] theorem ends_branch {taken : Bool} : Ends (branch taken target) m R E ↔
    R () { m with counter := if taken then target else m.counter + 1 } := by
  cases taken
  · exact ends_advance
  · exact ends_jump

end

def Fault.Tells (w : Word) (m : Machine) : Fault → Prop
  | .counterOutOfRange _ _ => False
  | .notAnInstruction _ _ => w.opcode.isData
  | .badJumpTarget _ target => w.opcode.isJump ∧ w.arg? 0 = some target ∧ target.toInt < 0
  | .path fault => fault.Tells w m.path

theorem control_fault (h : w.opcode.microProgram? = none) :
    Ends (execute w) m (fun _ _ => True) fun e m' => m' = m ∧ e.Tells w m := by
  unfold execute
  cases hop : w.opcode <;> rw [hop] at h <;> cases h <;>
    simp [Fault.Tells, DataPath.Fault.Tells, hop, Opcode.microProgram?, Opcode.signature,
      Opcode.isData, Opcode.isJump]
  case jmp => exact fun target ht hneg => ⟨ht, hneg⟩
  case jz => exact fun target ht hneg => ⟨ht, hneg⟩
  case jzR =>
    refine ⟨fun _ _ _ r hr hnone => ⟨⟨1, ?_, hr⟩, hnone⟩, fun target ht hneg => ⟨ht, hneg⟩⟩
    rw [hop]
    rfl

end Machine
end TickMachine
