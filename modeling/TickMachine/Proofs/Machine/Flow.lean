import Mathlib.Algebra.Ring.Nat
import TickMachine.Proofs.Machine.Growth
import TickMachine.Proofs.Machine.Meaning
import TickMachine.Proofs.Machine.Reach

/-! Where the counter goes and what the clock counts. Control flow has a rule for each of its
instructions, as the instructions with a micro-program have; along a run the costs of the executed
instructions add up to the time on the clock. -/

namespace TickMachine

/-- The rule of each instruction with a target, from the machine before it to the one after it. The
target is an exact address, and it has to be one whether the jump is taken or not. -/
def Word.Directs (w : Word) (m m' : Machine) : Prop :=
  match w.opcode with
  | .jmp => ∃ t c, w.arg? 0 = some t ∧ (c.toNat : Int) = t.toInt ∧
      { m with counter := c, tick := m.tick + 1 } = m'
  | .jz => ∃ t c, w.arg? 0 = some t ∧ (c.toNat : Int) = t.toInt ∧
      { m with
        counter := if m.path.isZero then c else m.counter + 1
        tick := m.tick + 1 } = m'
  | .jzR => ∃ t c r v, w.arg? 0 = some t ∧ (c.toNat : Int) = t.toInt ∧ w.arg? 1 = some r ∧
      m.path.register? r = some v ∧
      { m with
        counter := if v = 0 then c else m.counter + 1
        path := { m.path with isZero := v = 0 }
        tick := m.tick + 2 } = m'
  | _ => False

theorem Word.Directs.isJump {w : Word} {m m' : Machine} (h : w.Directs m m') :
    w.opcode.isJump := by
  unfold Directs at h
  cases hop : w.opcode <;> simp only [hop] at h <;> rfl

namespace Machine

open DataPath

variable {w : Word} {m m' : Machine} {o : Outcome} {op : Opcode} {ops : List Opcode}

theorem toNat_eq_toInt_iff {c : UInt64} {v : Int64} :
    (c.toNat : Int) = v.toInt ↔ 0 ≤ v.toInt ∧ UInt64.ofNat v.toInt.toNat = c := by
  have hlt : v.toInt < 2 ^ 63 := v.toInt_lt
  rw [← UInt64.toNat_inj, UInt64.toNat_ofNat']
  omega

@[simp] theorem jumpTarget_eq_ok_iff {c : UInt64} : jumpTarget w m = .ok c m' ↔
    ∃ v, w.arg? 0 = some v ∧ (c.toNat : Int) = v.toInt ∧ m = m' := by
  rw [jumpTarget, bind_eq_ok_iff]
  simp only [signal_eq_ok_iff, operand_eq_ok_iff, toNat_eq_toInt_iff]
  constructor
  · intro hrun
    rcases hrun with ⟨v, _, ⟨_, ⟨hv, rfl⟩, rfl⟩, htarget⟩
    by_cases hneg : v.toInt < 0
    · simp [hneg] at htarget
    · simp [hneg, later_zero] at htarget
      exact ⟨v, hv, ⟨Int.not_lt.1 hneg, htarget.1⟩, htarget.2⟩
  · intro htarget
    rcases htarget with ⟨v, hv, ⟨h0, rfl⟩, rfl⟩
    refine ⟨v, m, ⟨m.path, ⟨hv, rfl⟩, later_zero m m.path⟩, ?_⟩
    simp [Int.not_lt.2 h0]

theorem jumpTarget_bind_eq_ok_iff {f : UInt64 → Cycle Outcome} :
    (jumpTarget w >>= f) m = .ok o m' ↔
      ∃ t c, w.arg? 0 = some t ∧ (c.toNat : Int) = t.toInt ∧ f c m = .ok o m' := by
  simp only [bind_eq_ok_iff, jumpTarget_eq_ok_iff]
  constructor
  · intro hrun
    rcases hrun with ⟨c, _, ⟨t, ht, hc, rfl⟩, hf⟩
    exact ⟨t, c, ht, hc, hf⟩
  · intro htarget
    rcases htarget with ⟨t, c, ht, hc, hf⟩
    exact ⟨c, m, ⟨t, ht, hc, rfl⟩, hf⟩

theorem jumpTarget_then_eq_ok_iff {f : UInt64 → Cycle Outcome} {after : UInt64 → Machine}
    (hf : ∀ c, f c m = .ok (.executed op) (after c)) :
    (jumpTarget w >>= f) m = .ok o m' ↔ o = .executed op ∧
      ∃ t c, w.arg? 0 = some t ∧ (c.toNat : Int) = t.toInt ∧ after c = m' := by
  simp only [jumpTarget_bind_eq_ok_iff, hf, EStateM.Result.ok.injEq]
  constructor
  · intro hrun
    rcases hrun with ⟨t, c, ht, hc, rfl, hm⟩
    exact ⟨rfl, t, c, ht, hc, hm⟩
  · intro hrule
    rcases hrule with ⟨rfl, t, c, ht, hc, hm⟩
    exact ⟨t, c, ht, hc, rfl, hm⟩

theorem branch_apply {taken : Bool} {target : UInt64} : branch taken target m =
    .ok () { m with counter := if taken then target else m.counter + 1 } := by
  cases taken
  · rfl
  · rfl

theorem latchFlag_cmp {d : DataPath} {left right : Int64} :
    d.latchFlag (if left = right then 0 else 1) = { d with isZero := left = right } := by
  rw [latchFlag, Alu.flagAfter_cmp]

theorem execute_hlt (h : w.opcode = .hlt) : execute w m = .ok .halted m := by
  rw [execute, h]
  rfl

theorem execute_jmp_eq_ok_iff (h : w.opcode = .jmp) :
    execute w m = .ok o m' ↔ o = .executed w.opcode ∧ w.Directs m m' := by
  simp only [execute, Word.Directs, h]
  exact jumpTarget_then_eq_ok_iff fun _ => rfl

theorem execute_jz_eq_ok_iff (h : w.opcode = .jz) :
    execute w m = .ok o m' ↔ o = .executed w.opcode ∧ w.Directs m m' := by
  simp only [execute, Word.Directs, h]
  refine jumpTarget_then_eq_ok_iff fun c => ?_
  rw [get_bind_apply, bind_apply, branch_apply]
  rfl

theorem execute_jzR_eq_ok_iff (h : w.opcode = .jzR) :
    execute w m = .ok o m' ↔ o = .executed w.opcode ∧ w.Directs m m' := by
  -- The comparison counts a tick of its own, and the branch reads the flag that it has set.
  have htwo : m.tick + 1 + 1 = m.tick + 2 := UInt64.add_assoc m.tick 1 1
  simp only [execute, Word.Directs, h, jumpTarget_bind_eq_ok_iff]
  simp only [passTick, bind_pure_comp, bind_eq_ok_iff, signal_eq_ok_iff, operand_eq_ok_iff,
    readRegister_eq_ok_iff, exists_eq_right_right, later_zero, alu_eq_ok_iff, Alu.compute_cmp,
    Except.ok.injEq, modify_apply, EStateM.Result.ok.injEq, true_and, get_bind_apply, branch_apply,
    map_eq_ok_iff, exists_const, exists_eq_left', exists_and_left]
  constructor
  · intro hrun
    rcases hrun with ⟨t, ht, c, hc, v, _, ⟨_, ⟨r, ⟨hr, rfl⟩, hv⟩, rfl⟩, _, _, ⟨_, ⟨rfl, rfl⟩, rfl⟩,
      hm, ho⟩
    rw [latchFlag_cmp] at hm
    simp only [decide_eq_true_eq, htwo] at hm
    exact ⟨ho.symm, t, ht, c, hc, r, hr, v, hv, hm⟩
  · intro hrule
    rcases hrule with ⟨ho, t, ht, c, hc, r, hr, v, hv, hm⟩
    refine ⟨t, ht, c, hc, v, m, ⟨m.path, ⟨r, ⟨hr, rfl⟩, hv⟩, rfl⟩, _, _, ⟨_, ⟨rfl, rfl⟩, rfl⟩, ?_,
      ho.symm⟩
    rw [latchFlag_cmp]
    simp only [decide_eq_true_eq, htwo]
    exact hm

theorem execute_control_eq_ok_iff (h : w.opcode.microProgram? = none) :
    execute w m = .ok o m' ↔ w.opcode = .hlt ∧ o = .halted ∧ m = m' ∨
      o = .executed w.opcode ∧ w.Directs m m' := by
  cases hop : w.opcode <;> rw [hop] at h <;> cases h
  case hlt => simp [execute_hlt hop, Word.Directs, hop, eq_comm (a := o)]
  case jmp => simp [execute_jmp_eq_ok_iff hop, hop]
  case jz => simp [execute_jz_eq_ok_iff hop, hop]
  case jzR => simp [execute_jzR_eq_ok_iff hop, hop]
  all_goals simp [execute, Word.Directs, hop, Opcode.microProgram?]

theorem isJump_eq_false {steps : List MicroStep} (h : w.opcode.microProgram? = some steps) :
    w.opcode.isJump = false := by
  cases hop : w.opcode <;> rw [hop] at h <;> cases h <;> rfl

theorem step_executed_cases (h : step m = .ok (.executed op) m') :
    ∃ w, m.current? = some w ∧ op = w.opcode ∧
      (w.Directs m m' ∨ w.opcode.isJump = false ∧ m'.counter = m.counter + 1) := by
  obtain ⟨w, hw, hexec⟩ := step_eq_ok_iff.1 h
  cases hp : w.opcode.microProgram? with
  | none =>
    obtain ⟨-, ho, -⟩ | ⟨ho, hrule⟩ := (execute_control_eq_ok_iff hp).1 hexec
    · cases ho
    · exact ⟨w, hw, Outcome.executed.inj ho, .inl hrule⟩
  | some steps =>
    obtain ⟨ho, d, -, rfl⟩ := (execute_eq_ok_iff hp).1 hexec
    exact ⟨w, hw, Outcome.executed.inj ho, .inr ⟨isJump_eq_false hp, rfl⟩⟩

theorem step_of_performs {d : DataPath} (hw : m.current? = some w)
    (hp : w.opcode.microProgram?.isSome) (hd : w.Performs m.path d) :
    step m = .ok (.executed w.opcode)
      { m.later d w.opcode.cost with counter := m.counter + 1 } := by
  obtain ⟨steps, hs⟩ := Option.isSome_iff_exists.1 hp
  rw [step_of_current hw]
  exact (execute_eq_ok_iff hs).2 ⟨rfl, d, hd, rfl⟩

theorem step_of_directs (hw : m.current? = some w) (hm : w.Directs m m') :
    step m = .ok (.executed w.opcode) m' := by
  have hp : w.opcode.microProgram? = none := by
    refine Option.eq_none_iff_forall_ne_some.2 fun steps hs => ?_
    cases (isJump_eq_false hs).symm.trans hm.isJump
  rw [step_of_current hw]
  exact (execute_control_eq_ok_iff hp).2 (.inr ⟨rfl, hm⟩)

theorem toNat_counter_succ (hw : m.current? = some w) (hsize : m.program.size < UInt64.size) :
    (m.counter + 1).toNat = m.counter.toNat + 1 := by
  obtain ⟨hlt, -⟩ := Array.getElem?_eq_some_iff.1 hw
  rw [UInt64.toNat_add]
  exact Nat.mod_eq_of_lt (Nat.lt_of_le_of_lt hlt hsize)

inductive Executes : Machine → List Opcode → Machine → Prop
  | nil {m : Machine} : Executes m [] m
  | cons {m m₁ m' : Machine} {op : Opcode} {ops : List Opcode}
      (h : step m = .ok (.executed op) m₁) (hrun : Executes m₁ ops m') : Executes m (op :: ops) m'

theorem Executes.tick (h : Executes m ops m') :
    m'.tick = m.tick + UInt64.ofNat (ops.map Opcode.cost).sum := by
  induction h with
  | nil => exact (UInt64.add_zero _).symm
  | cons h _ ih =>
    rw [ih, (tick_of_executed h).2, List.map_cons, List.sum_cons, UInt64.ofNat_add,
      UInt64.add_assoc]

theorem Executes.append {m₁ : Machine} {ops' : List Opcode} (h : Executes m ops m₁)
    (h' : Executes m₁ ops' m') : Executes m (ops ++ ops') m' := by
  induction h with
  | nil => exact h'
  | cons hstep _ ih => exact .cons hstep (ih h')

theorem afterSteps_of_halted (h : step m = .ok .halted m) (k : Nat) : m.afterSteps k = m := by
  refine afterSteps_induct (I := (· = m)) ?_ rfl k
  rintro _ rfl
  rw [next, h]

/-- The clock of a run from the start shows the sum of the costs of the executed instructions, as
long as that fits. Such an instruction moves on to the next word, but for the jumps, which do what
their rules say and nothing else. A halt is for ever. -/
theorem executed_run_accounting :
    (∀ (program : Array Word) (path : DataPath) (ops : List Opcode) (m : Machine),
      Executes (start program path) ops m → (ops.map Opcode.cost).sum < UInt64.size →
        m.tick.toNat = (ops.map Opcode.cost).sum) ∧
    (∀ (m : Machine) (op : Opcode) (m' : Machine), step m = .ok (.executed op) m' →
      ∃ w, m.current? = some w ∧ op = w.opcode ∧ (w.opcode.isJump → w.Directs m m') ∧
        (¬ w.opcode.isJump → m'.counter = m.counter + 1) ∧
        (m.program.size < UInt64.size → (m.counter + 1).toNat = m.counter.toNat + 1)) ∧
    ∀ (m : Machine) (w : Word), m.current? = some w → w.opcode = .hlt →
      step m = .ok .halted m ∧ ∀ k, m.afterSteps k = m := by
  refine ⟨fun program path ops m hrun hsum => ?_, fun m op m' h => ?_, fun m w hw hop => ?_⟩
  · have htick : m.tick = 0 + UInt64.ofNat (ops.map Opcode.cost).sum := hrun.tick
    rw [htick, UInt64.zero_add, UInt64.toNat_ofNat', Nat.mod_eq_of_lt hsum]
  · obtain ⟨w, hw, ho, hmove⟩ := step_executed_cases h
    refine ⟨w, hw, ho, fun hjump => ?_, fun hjump => ?_, toNat_counter_succ hw⟩
    · exact hmove.resolve_right fun hplain => absurd hjump (by simp [hplain.1])
    · exact (hmove.resolve_left fun hrule => hjump hrule.isJump).2
  · have hhalt : step m = .ok .halted m := by rw [step_of_current hw, execute_hlt hop]
    exact ⟨hhalt, afterSteps_of_halted hhalt⟩

theorem executed_run_accounting_jumps :
    ∃ m, Executes (start #[⟨0, .jz, [2]⟩, ⟨1, .jmp, [3]⟩, ⟨2, .hlt, []⟩, ⟨3, .jzR, [2, 0]⟩]
        (.start #[] 1 [])) [.jz, .jmp, .jzR] m ∧
      m.counter = 2 ∧ m.path.isZero ∧ m.tick.toNat = 4 ∧
      (∃ (w : Word) (m₁ : Machine),
        step ⟨m.program, 3, .start #[] 1 [], 2⟩ = .ok (.executed .jzR) m₁ ∧ w.opcode = .jzR ∧
        w.Directs ⟨m.program, 3, .start #[] 1 [], 2⟩ m₁) ∧
      step m = .ok .halted m ∧ ∀ k, m.afterSteps k = m := by
  have hrun : Executes (start #[⟨0, .jz, [2]⟩, ⟨1, .jmp, [3]⟩, ⟨2, .hlt, []⟩, ⟨3, .jzR, [2, 0]⟩]
      (.start #[] 1 [])) [.jz, .jmp, .jzR] _ :=
    .cons rfl (.cons rfl (.cons rfl .nil))
  refine ⟨_, hrun, rfl, rfl, executed_run_accounting.1 _ _ _ _ hrun (by decide), ?_,
    executed_run_accounting.2.2 _ ⟨2, .hlt, []⟩ rfl rfl⟩
  obtain ⟨w, -, ho, hrule, -⟩ := executed_run_accounting.2.1
    ⟨#[⟨0, .jz, [2]⟩, ⟨1, .jmp, [3]⟩, ⟨2, .hlt, []⟩, ⟨3, .jzR, [2, 0]⟩], 3, .start #[] 1 [], 2⟩
    .jzR _ rfl
  exact ⟨w, _, rfl, ho.symm, hrule (ho ▸ rfl)⟩

end Machine
end TickMachine
