import TickMachine.Proofs.Machine.Control
import TickMachine.Proofs.Machine.SignalRun

/-! Runs of any length, on which a failed step may be followed by others. No step changes the
program or the number of registers, and the counter moves by one word or to the target of a
jump. -/

namespace TickMachine.Machine

open DataPath

structure Keeps (m m' : Machine) : Prop where
  program : m'.program = m.program
  counter : m'.counter = m.counter
  registers : m'.path.registers.size = m.path.registers.size

inductive Moves (w : Word) (m : Machine) : UInt64 → Prop
  | stay : Moves w m m.counter
  | advance : Moves w m (m.counter + 1)
  | jump (target : Int64) (hw : w.opcode.isJump) (ha : w.arg? 0 = some target)
      (h0 : 0 ≤ target.toInt) : Moves w m (UInt64.ofNat target.toInt.toNat)

structure Proceeds (w : Word) (m m' : Machine) : Prop where
  program : m'.program = m.program
  registers : m'.path.registers.size = m.path.registers.size
  counter : Moves w m m'.counter

variable {w : Word} {s : MicroStep} {m m' : Machine} {d : DataPath}

theorem Keeps.refl (m : Machine) : Keeps m m := ⟨rfl, rfl, rfl⟩

theorem Keeps.trans {m₁ m₂ : Machine} (h₁ : Keeps m m₁) (h₂ : Keeps m₁ m₂) : Keeps m m₂ :=
  ⟨h₂.program.trans h₁.program, h₂.counter.trans h₁.counter, h₂.registers.trans h₁.registers⟩

theorem signalOf_size : Ends (signalOf w s) d (fun _ d' => d'.registers.size = d.registers.size)
    fun _ d' => d'.registers.size = d.registers.size := by
  have hsame {d' : DataPath} (h : d.SameStores d') : d'.registers.size = d.registers.size :=
    congrArg Array.size h.registers
  refine ⟨fun _ d' h => ?_, fun _ d' h => hsame (signalOf_fault_frame h)⟩
  cases s with
  | latchRegister phase => exact (latchRegister_frame.1 _ _ h).2.2
  | write => exact congrArg Array.size (write_frame.1 _ _ h).1
  | _ => exact hsame ((signalOf_quiet_frame rfl).1 _ _ h)

theorem microStep_keeps : Ends (microStep w s) m (fun _ => Keeps m) fun _ => Keeps m := by
  refine ⟨fun _ m' h => ?_, fun _ m' h => ?_⟩
  · obtain ⟨d, hd, rfl⟩ := microStep_eq_ok_iff.1 h
    exact ⟨rfl, rfl, signalOf_size.1 _ _ hd⟩
  · obtain ⟨cause, d, hd, -, rfl⟩ := microStep_eq_error_iff.1 h
    exact ⟨rfl, rfl, signalOf_size.2 _ _ hd⟩

theorem microSteps_keep {steps : List MicroStep} :
    Ends (steps.forM (microStep w)) m (fun _ => Keeps m) fun _ => Keeps m := by
  apply Ends.forM _ (.refl m)
  intro s _ m₁ h
  exact microStep_keeps.mono (fun _ _ h' => h.trans h') fun _ _ h' => h.trans h'

theorem Moves.branch {target : Int64} {taken : Bool} (hw : w.opcode.isJump)
    (ha : w.arg? 0 = some target) (h0 : 0 ≤ target.toInt) :
    Moves w m (if taken then UInt64.ofNat target.toInt.toNat else m.counter + 1) := by
  cases taken with
  | false => exact .advance
  | true => exact .jump target hw ha h0

theorem control_proceeds (h : w.opcode.microProgram? = none) :
    Ends (execute w) m (fun _ => Proceeds w m) fun _ => Keeps m := by
  have hjump : w.opcode = .jmp ∨ w.opcode = .jz ∨ w.opcode = .jzR → w.opcode.isJump := by
    intro hop
    rcases hop with hop | hop | hop <;> rw [hop] <;> rfl
  unfold execute
  cases hop : w.opcode <;> rw [hop] at h <;> cases h <;>
    simp [Opcode.microProgram?, latchFlag, Keeps.refl]
  case hlt => exact ⟨rfl, rfl, .stay⟩
  case jmp => exact fun target ha h0 => ⟨rfl, rfl, .jump target (hjump (by simp [hop])) ha h0⟩
  case jz => exact fun target ha h0 => ⟨rfl, rfl, .branch (hjump (by simp [hop])) ha h0⟩
  case jzR =>
    exact fun target ha h0 _ _ _ _ => ⟨rfl, rfl, .branch (hjump (by simp [hop])) ha h0⟩

theorem execute_proceeds :
    Ends (execute w) m (fun _ => Proceeds w m) fun _ => Keeps m := by
  cases hp : w.opcode.microProgram? with
  | none => exact control_proceeds hp
  | some steps =>
    rw [execute_of_microProgram hp, ends_bind]
    refine microSteps_keep.mono (fun _ m₁ h => ?_) fun _ _ h => h
    have hcounter : Moves w m (m₁.counter + 1) := h.counter ▸ .advance
    simp only [ends_bind, ends_advance, ends_passTick, ends_pure]
    exact ⟨h.program, h.registers, hcounter⟩

theorem mem_of_current? (hw : m.current? = some w) : w ∈ m.program.toList := by
  obtain ⟨hlt, rfl⟩ := Array.getElem?_eq_some_iff.1 hw
  exact Array.mem_toList_iff.2 (Array.getElem_mem hlt)

def next (m : Machine) : Machine :=
  match step m with
  | .ok _ m' => m'
  | .error _ m' => m'

theorem next_of_error {fault : Fault} (h : step m = .error fault m') : m.next = m' := by
  rw [next, h]

def afterSteps (m : Machine) : Nat → Machine
  | 0 => m
  | k + 1 => (m.afterSteps k).next

theorem next_keeps_or_proceeds :
    Keeps m m.next ∨ ∃ w, m.current? = some w ∧ Proceeds w m m.next := by
  cases hw : m.current? with
  | none =>
    have hnext : m.next = m := next_of_error (step_of_outside hw)
    rw [hnext]
    exact .inl (.refl m)
  | some w =>
    have hends := @execute_proceeds w m
    rw [next, step_of_current hw]
    cases hstep : execute w m with
    | ok outcome m' => exact .inr ⟨w, rfl, hends.1 _ _ hstep⟩
    | error fault m' => exact .inl (hends.2 _ _ hstep)

theorem afterSteps_induct {I : Machine → Prop} (hnext : ∀ m, I m → I m.next) (hm : I m) (k : Nat) :
    I (m.afterSteps k) := by
  induction k with
  | zero => exact hm
  | succ k ih => exact hnext _ ih

theorem next_keeps : m.next.program = m.program ∧
    m.next.path.registers.size = m.path.registers.size := by
  rcases @next_keeps_or_proceeds m with h | ⟨w, -, h⟩
  · exact ⟨h.program, h.registers⟩
  · exact ⟨h.program, h.registers⟩

theorem afterSteps_keep (k : Nat) : (m.afterSteps k).program = m.program ∧
    (m.afterSteps k).path.registers.size = m.path.registers.size := by
  refine afterSteps_induct (I := fun m' => m'.program = m.program ∧
    m'.path.registers.size = m.path.registers.size) ?_ ⟨rfl, rfl⟩ k
  intro m' h
  exact ⟨next_keeps.1.trans h.1, next_keeps.2.trans h.2⟩

/-- Every jump of the code goes to a word of it or to its end. -/
def TargetsInside (code : List Word) : Prop :=
  ∀ w ∈ code, w.opcode.isJump → ∀ target, w.arg? 0 = some target →
    0 ≤ target.toInt ∧ target.toInt ≤ code.length

theorem Moves.toNat_le {c : UInt64} {size : Nat} (h : Moves w m c) (hlt : m.counter.toNat < size)
    (ht : w.opcode.isJump → ∀ target, w.arg? 0 = some target →
      0 ≤ target.toInt ∧ target.toInt ≤ size) : c.toNat ≤ size := by
  cases h with
  | stay => exact Nat.le_of_lt hlt
  | advance =>
    -- The counter may wrap around to the first word.
    have hwrap := Nat.mod_le (m.counter.toNat + 1) (2 ^ 64)
    rw [UInt64.toNat_add]
    exact Nat.le_trans hwrap hlt
  | jump target hjump ha h0 =>
    have hle := (ht hjump target ha).2
    have hmod := Nat.mod_le target.toInt.toNat (2 ^ 64)
    rw [UInt64.toNat_ofNat']
    omega

theorem next_counter_le (ht : TargetsInside m.program.toList)
    (hc : m.counter.toNat ≤ m.program.size) : m.next.counter.toNat ≤ m.program.size := by
  rcases @next_keeps_or_proceeds m with h | ⟨w, hw, h⟩
  · rwa [h.counter]
  · obtain ⟨hlt, -⟩ := Array.getElem?_eq_some_iff.1 hw
    exact h.counter.toNat_le hlt (ht w (mem_of_current? hw))

theorem afterSteps_counter_le (ht : TargetsInside m.program.toList)
    (hc : m.counter.toNat ≤ m.program.size) (k : Nat) :
    (m.afterSteps k).counter.toNat ≤ m.program.size := by
  have hinv := afterSteps_induct (m := m) (I := fun m' => m'.program = m.program ∧
    m'.counter.toNat ≤ m'.program.size) (fun m' h => ?_) ⟨rfl, hc⟩ k
  · rw [← hinv.1]
    exact hinv.2
  · have ht' : TargetsInside m'.program.toList := h.1 ▸ ht
    rw [next_keeps.1]
    exact ⟨h.1, next_counter_le ht' h.2⟩

end TickMachine.Machine
