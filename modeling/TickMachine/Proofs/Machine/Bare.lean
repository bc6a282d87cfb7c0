import TickMachine.Proofs.DataPath.Bare
import TickMachine.Proofs.Machine.Reach

/-! The machine without what no step looks at. A step of the machine and one of the bare machine end
alike, up to the index that a fault tells, and so do runs of any length. -/

namespace TickMachine.Machine

open DataPath (Bares)

def Fault.bare : Fault → Fault
  | .notAnInstruction opcode _ => .notAnInstruction opcode 0
  | .badJumpTarget _ target => .badJumpTarget 0 target
  | .path fault => .path fault.bare
  | fault => fault

def bare (m : Machine) : Machine :=
  { m with program := m.program.map Word.bare, path := m.path.bare }

abbrev CyclesBare {α : Type} (a a' : Cycle α) : Prop := Mirrors bare Fault.bare a a'

variable {w : Word} {m : Machine} {s : MicroStep} {steps : List MicroStep} {target : UInt64}
  {taken : Bool}

theorem signal_bare {α : Type} {action action' : DataPath.Action α} (h : Bares action action') :
    CyclesBare (signal action) (signal action') := by
  intro m
  have hpath : action' m.bare.path = seenBy DataPath.bare DataPath.Fault.bare (action m.path) :=
    h m.path
  rw [signal, signal, hpath]
  cases action m.path <;> rfl

theorem passTick_bare : CyclesBare passTick passTick := .modify fun _ => rfl

theorem advance_bare : CyclesBare advance advance := .modify fun _ => rfl

theorem jump_bare : CyclesBare (jump target) (jump target) := .modify fun _ => rfl

theorem branch_bare : CyclesBare (branch taken target) (branch taken target) :=
  .ite jump_bare advance_bare

theorem jumpTarget_bare (h : 0 < w.opcode.signature.length) :
    CyclesBare (jumpTarget w) (jumpTarget w.bare) := by
  refine .bind (signal_bare (DataPath.operand_bares h)) fun target => ?_
  split
  · exact .bind (.throw rfl) fun _ => .pure
  · exact .pure

theorem microStep_bare : CyclesBare (microStep w s) (microStep w.bare s) := by
  cases s with
  | latchAddress phase => exact signal_bare DataPath.latchAddress_bares
  | latchBuffer phase => exact signal_bare DataPath.latchBuffer_bares
  | latchRegister phase => exact signal_bare DataPath.latchRegister_bares
  | write => exact signal_bare DataPath.write_bares
  | compare => exact signal_bare DataPath.compare_bares
  | tick => exact passTick_bare

theorem control_bare (h : w.opcode.microProgram? = none) :
    CyclesBare (execute w) (execute w.bare) := by
  unfold execute
  rw [DataPath.opcode_bare]
  cases hop : w.opcode <;> rw [hop] at h <;> cases h
  case hlt => exact .pure
  case jmp =>
    exact .bind (jumpTarget_bare (by rw [hop]; decide)) fun _ =>
      .bind jump_bare fun _ => .bind passTick_bare fun _ => .pure
  case jz =>
    exact .bind (jumpTarget_bare (by rw [hop]; decide)) fun _ => .get_bind fun _ =>
      .bind branch_bare fun _ => .bind passTick_bare fun _ => .pure
  case jzR =>
    have hread : Bares (DataPath.operand w 1 >>= DataPath.readRegister) _ :=
      DataPath.readOperand_bares (by rw [hop]; decide)
    exact .bind (jumpTarget_bare (by rw [hop]; decide)) fun _ => .bind (signal_bare hread) fun _ =>
      .bind (signal_bare DataPath.alu_bares) fun _ => .bind passTick_bare fun _ =>
      .get_bind fun _ => .bind branch_bare fun _ => .bind passTick_bare fun _ => .pure
  all_goals exact .throw rfl

theorem execute_bare : CyclesBare (execute w) (execute w.bare) := by
  cases hp : w.opcode.microProgram? with
  | none => exact control_bare hp
  | some steps =>
    rw [execute_of_microProgram hp, execute_of_microProgram (w := w.bare) hp]
    exact .bind (.forM fun _ => microStep_bare) fun _ =>
      .bind advance_bare fun _ => .bind passTick_bare fun _ => .pure

theorem current?_bare : m.bare.current? = m.current?.map Word.bare := Array.getElem?_map

theorem step_bare : CyclesBare step step := by
  intro m
  cases hw : m.current? with
  | none =>
    have hbare : m.bare.current? = none := by rw [current?_bare, hw]; rfl
    rw [step_of_outside hw, step_of_outside hbare]
    simp [bare, seenBy, Fault.bare]
  | some w =>
    have hbare : m.bare.current? = some w.bare := by rw [current?_bare, hw]; rfl
    rw [step_of_current hw, step_of_current hbare, execute_bare m]

theorem next_bare : m.bare.next = m.next.bare := by
  rw [next, next, step_bare m]
  cases step m <;> rfl

theorem afterSteps_bare (k : Nat) : m.bare.afterSteps k = (m.afterSteps k).bare := by
  induction k with
  | zero => rfl
  | succ k ih => rw [afterSteps, afterSteps, ih, next_bare]

end TickMachine.Machine
