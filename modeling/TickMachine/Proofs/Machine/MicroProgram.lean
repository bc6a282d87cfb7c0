import TickMachine.Machine.Basic
import TickMachine.Proofs.DataPath.Actions

/-! A micro-program seen from the data path: the machine around it only counts the ticks. A run of
micro-steps is a run of their signals, and where one of these stops in a fault the ticks are those
in front of it. -/

namespace TickMachine

namespace Opcode

def cost : Opcode → Nat
  | .jmp | .jz | .mov | .cmp | .inc => 1
  | .jzR | .loadV | .loadR | .storeV | .storeR | .modRrv | .linear => 2
  | .next | .linearCont => 3
  | .addMmr => 4
  | .hlt | .number | .string | .buffer => 0

theorem cost_le (op : Opcode) : op.cost ≤ 4 := by cases op <;> decide

theorem cost_eq_count {op : Opcode} {steps : List MicroStep} (h : op.microProgram? = some steps) :
    op.cost = steps.count .tick + 1 := by
  cases op <;> cases h <;> rfl

end Opcode

namespace Machine

def signalOf (w : Word) : MicroStep → DataPath.Action Unit
  | .latchAddress phase => DataPath.latchAddress w phase
  | .latchBuffer phase => DataPath.latchBuffer w phase
  | .latchRegister phase => DataPath.latchRegister w phase
  | .write => DataPath.write w
  | .compare => DataPath.compare w
  | .tick => pure ()

def later (m : Machine) (d : DataPath) (ticks : Nat) : Machine :=
  { m with path := d, tick := m.tick + UInt64.ofNat ticks }

theorem later_later (m : Machine) (d₁ d₂ : DataPath) (a b : Nat) :
    (m.later d₁ a).later d₂ b = m.later d₂ (a + b) := by
  simp only [later, UInt64.ofNat_add, UInt64.add_assoc]

theorem later_zero (m : Machine) (d : DataPath) : m.later d 0 = { m with path := d } := by
  have h : m.tick + UInt64.ofNat 0 = m.tick := UInt64.add_zero m.tick
  rw [later, h]

theorem tick_later {m : Machine} {d : DataPath} {ticks : Nat}
    (h : m.tick.toNat + ticks < UInt64.size) :
    (m.later d ticks).tick.toNat = m.tick.toNat + ticks := by
  rw [later, UInt64.toNat_add, UInt64.toNat_ofNat', Nat.add_mod_mod, Nat.mod_eq_of_lt h]

theorem tick_add_lt {m : Machine} {ticks : Nat} (ht : m.tick.toNat ≤ UInt64.size - 5)
    (h : ticks ≤ 4) : m.tick.toNat + ticks < UInt64.size := by
  have hsize : UInt64.size = 18446744073709551616 := rfl
  omega

variable {w : Word} {m m' : Machine} {d : DataPath} {fault : Fault} {steps : List MicroStep}
  {u : Unit}

theorem signal_eq_ok_iff {α : Type} {action : DataPath.Action α} {x : α} :
    signal action m = .ok x m' ↔ ∃ d, action m.path = .ok x d ∧ m.later d 0 = m' := by
  rw [signal]
  cases action m.path <;> simp [later_zero, and_assoc]

theorem signal_eq_error_iff {α : Type} {action : DataPath.Action α} :
    signal action m = .error fault m' ↔
      ∃ cause d, action m.path = .error cause d ∧ .path cause = fault ∧ m.later d 0 = m' := by
  rw [signal]
  cases action m.path <;> simp [later_zero, and_assoc]

theorem microStep_eq_signal {s : MicroStep} (h : s ≠ .tick) :
    microStep w s = signal (signalOf w s) := by
  cases s with
  | tick => exact absurd rfl h
  | _ => rfl

theorem microStep_eq_ok_iff {s : MicroStep} :
    microStep w s m = .ok u m' ↔
      ∃ d, signalOf w s m.path = .ok u d ∧ m.later d ([s].count .tick) = m' := by
  by_cases h : s = .tick
  · subst h
    simp [microStep, passTick, signalOf, later]
  · have hcount : [s].count .tick = 0 := List.count_eq_zero_of_not_mem (by simp [Ne.symm h])
    rw [microStep_eq_signal h, signal_eq_ok_iff, hcount]

theorem microStep_eq_error_iff {s : MicroStep} :
    microStep w s m = .error fault m' ↔
      ∃ cause d, signalOf w s m.path = .error cause d ∧ .path cause = fault ∧ m.later d 0 = m' := by
  by_cases h : s = .tick
  · subst h
    simp [microStep, passTick, signalOf]
  · rw [microStep_eq_signal h, signal_eq_error_iff]

theorem microSteps_eq_ok_iff :
    steps.forM (microStep w) m = .ok u m' ↔
      ∃ d, steps.forM (signalOf w) m.path = .ok u d ∧ m.later d (steps.count .tick) = m' := by
  induction steps generalizing m with
  | nil => simp [forM_nil_apply, later_zero]
  | cons s steps ih =>
    simp only [forM_cons_apply, bind_eq_ok_iff, microStep_eq_ok_iff, ih]
    constructor
    · intro hrun
      rcases hrun with ⟨_, _, ⟨d₁, hs, rfl⟩, d₂, hd, rfl⟩
      refine ⟨d₂, ⟨_, d₁, hs, hd⟩, ?_⟩
      rw [later_later, ← List.count_append, List.singleton_append]
    · intro hsignals
      rcases hsignals with ⟨d₂, ⟨_, d₁, hs, hd⟩, rfl⟩
      refine ⟨_, _, ⟨d₁, hs, rfl⟩, d₂, hd, ?_⟩
      rw [later_later, ← List.count_append, List.singleton_append]

theorem microSteps_eq_error_iff :
    steps.forM (microStep w) m = .error fault m' ↔
      ∃ before s after d₁ cause d, steps = before ++ s :: after ∧
        before.forM (signalOf w) m.path = .ok () d₁ ∧ signalOf w s d₁ = .error cause d ∧
        .path cause = fault ∧ m.later d (before.count .tick) = m' := by
  simp only [forM_eq_error_iff, microSteps_eq_ok_iff, microStep_eq_error_iff]
  constructor
  · intro hrun
    rcases hrun with ⟨before, s, after, _, hsteps, ⟨d₁, hb, rfl⟩, cause, d, hs, hf, rfl⟩
    exact ⟨before, s, after, d₁, cause, d, hsteps, hb, hs, hf, by rw [later_later, Nat.add_zero]⟩
  · intro hsignals
    rcases hsignals with ⟨before, s, after, d₁, cause, d, hsteps, hb, hs, hf, rfl⟩
    exact ⟨before, s, after, _, hsteps, ⟨d₁, hb, rfl⟩, cause, d, hs, hf,
      by rw [later_later, Nat.add_zero]⟩

theorem execute_of_microProgram (h : w.opcode.microProgram? = some steps) :
    execute w = do
      steps.forM (microStep w)
      advance
      passTick
      return .executed w.opcode := by
  unfold execute
  cases hop : w.opcode <;> rw [hop] at h <;> cases h <;> rfl

theorem step_of_current (h : m.current? = some w) : step m = execute w m := by
  rw [step, get_bind_apply, h]

theorem step_of_outside (h : m.current? = none) :
    step m = .error (.counterOutOfRange m.counter m.program.size) m := by
  rw [step, get_bind_apply, h]
  rfl

theorem step_eq_ok_iff {o : Outcome} :
    step m = .ok o m' ↔ ∃ w, m.current? = some w ∧ execute w m = .ok o m' := by
  cases hw : m.current? with
  | none => simp [step_of_outside hw]
  | some w => simp [step_of_current hw]

end Machine
end TickMachine
