import TickMachine.Proofs.Machine.Control
import TickMachine.Proofs.Machine.SignalRun

/-! What a failing step leaves behind: all stores, but for the pointer of a `next`, and a clock that
is late by the ticks in front of the fault. The end of the input is a fault that repeats itself. -/

namespace TickMachine.Machine

open DataPath

variable {w : Word} {s : MicroStep} {d d' : DataPath} {m m' : Machine} {fault : Fault}
  {cause : DataPath.Fault} {steps before after : List MicroStep}

theorem step_error_cases (h : step m = .error fault m') :
    (m.current? = none ∧ fault = .counterOutOfRange m.counter m.program.size ∧ m' = m) ∨
    (∃ w, m.current? = some w ∧ w.opcode.microProgram? = none ∧ m' = m ∧ fault.Tells w m) ∨
    ∃ w before s after d₁ cause d, m.current? = some w ∧
      w.opcode.microProgram? = some (before ++ s :: after) ∧
      before.forM (signalOf w) m.path = .ok () d₁ ∧ signalOf w s d₁ = .error cause d ∧
      fault = .path cause ∧ m' = m.later d (before.count .tick) := by
  cases hw : m.current? with
  | none =>
    rw [step_of_outside hw] at h
    obtain ⟨rfl, rfl⟩ := EStateM.Result.error.inj h
    exact .inl ⟨rfl, rfl, rfl⟩
  | some w =>
    refine .inr ?_
    rw [step_of_current hw] at h
    cases hp : w.opcode.microProgram? with
    | none => exact .inl ⟨w, rfl, hp, (control_fault hp).2 _ _ h⟩
    | some steps =>
      rw [execute_of_microProgram hp, bind_eq_error_iff] at h
      obtain h | ⟨_, _, -, h⟩ := h
      · obtain ⟨before, s, after, d₁, cause, d, rfl, hb, hf, rfl, rfl⟩ :=
          microSteps_eq_error_iff.1 h
        exact .inr ⟨w, before, s, after, d₁, cause, d, rfl, hp, hb, hf, rfl, rfl⟩
      · cases h

theorem step_tells (h : step m = .error fault m') :
    (m.current? = none ∧ fault = .counterOutOfRange m.counter m.program.size) ∨
      ∃ w, m.current? = some w ∧ fault.Tells w m' := by
  obtain ⟨hw, hf, -⟩ | ⟨w, hw, -, rfl, hf⟩ |
    ⟨w, before, s, after, d₁, cause, d, hw, hs, -, hf, rfl, rfl⟩ := step_error_cases h
  · exact .inl ⟨hw, hf⟩
  · exact .inr ⟨w, hw, hf⟩
  · have hmem : s ∈ before ++ s :: after := List.mem_append_right _ (List.mem_cons_self ..)
    exact .inr ⟨w, hw, (signalOf_tells hs hmem).2 _ _ hf⟩

/-- How many ticks a failing step has counted: those in front of the signal that failed. -/
inductive TicksBefore (m : Machine) (fault : Fault) (m' : Machine) : Nat → Prop
  | outside (h : m.current? = none) : TicksBefore m fault m' 0
  | control {w : Word} (hw : m.current? = some w) (h : w.opcode.microProgram? = none) :
      TicksBefore m fault m' 0
  | signal {w : Word} {before after : List MicroStep} {s : MicroStep} {m₁ : Machine}
      (hw : m.current? = some w) (hs : w.opcode.microProgram? = some (before ++ s :: after))
      (hb : before.forM (microStep w) m = .ok () m₁) (hf : microStep w s m₁ = .error fault m') :
      TicksBefore m fault m' (before.count .tick)

structure FailsInto (m : Machine) (fault : Fault) (m' : Machine) : Prop where
  program : m'.program = m.program
  counter : m'.counter = m.counter
  cells : m'.path.cells = m.path.cells
  input : m'.path.input = m.path.input
  output : m'.path.output = m.path.output
  registers : (∃ w, m.current? = some w ∧ w.MovesPointer m.path m'.path.registers) ∨
    (∀ w registers, m.current? = some w → ¬ w.MovesPointer m.path registers) ∧
      m'.path.registers = m.path.registers
  ticks : ∃ ticks ≤ 3, TicksBefore m fault m' ticks ∧ m'.tick.toNat = m.tick.toNat + ticks

theorem failsInto_of_unchanged (ht : TicksBefore m fault m 0)
    (h : ∀ w, m.current? = some w → w.opcode ≠ .next) : FailsInto m fault m where
  program := rfl
  counter := rfl
  cells := rfl
  input := rfl
  output := rfl
  registers := .inr ⟨fun w _ hw hmove => h w hw hmove.1, rfl⟩
  ticks := ⟨0, by decide, ht, rfl⟩

theorem count_tick_le (hs : w.opcode.microProgram? = some (before ++ s :: after)) :
    before.count .tick ≤ 3 := by
  have hcost := w.opcode.cost_le
  rw [Opcode.cost_eq_count hs, List.count_append] at hcost
  omega

theorem failsInto_of_signal {d₁ : DataPath} (ht : m.tick.toNat ≤ UInt64.size - 5)
    (hw : m.current? = some w) (hs : w.opcode.microProgram? = some (before ++ s :: after))
    (hb : before.forM (signalOf w) m.path = .ok () d₁)
    (hf : signalOf w s d₁ = .error cause d') :
    FailsInto m (.path cause) (m.later d' (before.count .tick)) := by
  have hle := count_tick_le hs
  have hlt := tick_add_lt ht (Nat.le_succ_of_le hle)
  have hticks : ∃ ticks ≤ 3, TicksBefore m (.path cause) (m.later d' (before.count .tick)) ticks ∧
      (m.later d' (before.count .tick)).tick.toNat = m.tick.toNat + ticks := by
    refine ⟨_, hle, .signal hw hs (microSteps_eq_ok_iff.2 ⟨d₁, hb, rfl⟩) ?_, tick_later hlt⟩
    exact microStep_eq_error_iff.2 ⟨cause, d', hf, rfl, by rw [later_later, Nat.add_zero]⟩
  by_cases hop : w.opcode = .next
  · obtain ⟨⟨hcells, hinput, houtput⟩, hregs⟩ := next_signals_fault_frame hop hs hb hf
    refine ⟨rfl, rfl, hcells, hinput, houtput, hregs.imp ?_ ?_, hticks⟩
    · exact fun hmove => ⟨w, hw, hmove⟩
    · intro hkept
      rcases hkept with ⟨hstay, hsame⟩
      refine ⟨fun w' registers hw' => ?_, hsame⟩
      obtain rfl : w = w' := Option.some.inj (hw.symm.trans hw')
      exact hstay registers
  · have hsame := signals_fault_frame hop hs hb hf
    refine ⟨rfl, rfl, hsame.cells, hsame.input, hsame.output, .inr ⟨?_, hsame.registers⟩, hticks⟩
    intro w' registers hw' hmove
    obtain rfl : w = w' := Option.some.inj (hw.symm.trans hw')
    exact hop hmove.1

theorem failsInto_of_step (ht : m.tick.toNat ≤ UInt64.size - 5) (h : step m = .error fault m') :
    FailsInto m fault m' := by
  obtain ⟨hw, -, rfl⟩ | ⟨w, hw, hp, rfl, -⟩ |
    ⟨w, before, s, after, d₁, cause, d, hw, hs, hb, hf, rfl, rfl⟩ := step_error_cases h
  · exact failsInto_of_unchanged (.outside hw) (by simp [hw])
  · refine failsInto_of_unchanged (.control hw hp) fun w' hw' hop => ?_
    obtain rfl : w = w' := Option.some.inj (hw.symm.trans hw')
    rw [hop] at hp
    cases hp
  · exact failsInto_of_signal ht hw hs hb hf

def AwaitsInput (m : Machine) : Prop :=
  ∃ w r, m.current? = some w ∧ w.opcode = .loadV ∧ w.arg? 0 = some r ∧ w.arg? 1 = some 0 ∧
    0 ≤ r.toInt ∧ r.toInt < m.path.registers.size ∧ m.path.input = []

def waited (m : Machine) : Machine :=
  { m with path := { m.path with address := 0 }, tick := m.tick + 1 }

theorem AwaitsInput.waited (h : m.AwaitsInput) : m.waited.AwaitsInput := h

theorem step_of_awaitsInput (h : m.AwaitsInput) : step m = .error (.path .endOfInput) m.waited := by
  obtain ⟨w, r, hw, hop, hr, ha, h0, hlt, hinput⟩ := h
  have hreads : w.readsInput := Word.readsInput_iff.2 ⟨hop, ha⟩
  have hplace : place? r m.path.registers.size = some r.toInt.toNat :=
    place?_eq_some_iff.2 (by omega)
  have hp : w.opcode.microProgram? =
      some ([.latchAddress .first, .tick] ++ .latchRegister .first :: []) := by rw [hop]; rfl
  have hb : [.latchAddress .first, .tick].forM (signalOf w) m.path =
      .ok () { m.path with address := 0 } := by
    simp [forM_cons_apply, signalOf, latchAddress, hop, ha, and_assoc]
  have hf : signalOf w (.latchRegister .first) { m.path with address := 0 } =
      .error .endOfInput { m.path with address := 0 } := by
    simp [signalOf, latchRegister, hreads, hr, hplace, hinput, and_assoc]
  rw [step_of_current hw, execute_of_microProgram hp, bind_eq_error_iff]
  exact .inl (microSteps_eq_error_iff.2 ⟨_, _, _, _, _, _, rfl, hb, hf, rfl, rfl⟩)

theorem awaitsInput_of_step (h : step m = .error (.path .endOfInput) m') : m.AwaitsInput := by
  obtain ⟨-, hfault, -⟩ | ⟨w, hw, hp, -, hreads, -⟩ |
    ⟨w, before, s, after, d₁, cause, d, hw, hs, hb, hf, hfault, -⟩ := step_error_cases h
  · cases hfault
  · rw [(Word.readsInput_iff.1 hreads).1] at hp
    cases hp
  · obtain rfl := Fault.path.inj hfault
    have hmem : s ∈ before ++ s :: after := List.mem_append_right _ (List.mem_cons_self ..)
    obtain ⟨hreads, hinput, r, i, hr, hplace⟩ := (signalOf_tells hs hmem).2 _ _ hf
    obtain ⟨hop, ha⟩ := Word.readsInput_iff.1 hreads
    have hsame : m.path.SameStores d := signals_fault_frame (by simp [hop]) hs hb hf
    rw [hsame.input] at hinput
    rw [hsame.registers, place?_eq_some_iff] at hplace
    exact ⟨w, r, hw, hop, hr, ha, by omega, by omega, hinput⟩

/-- A failing step never leaves an instruction half done. At the end of the input it only selects
cell 0 and counts a tick, and the next step fails in the same way. -/
theorem step_fault (ht : m.tick.toNat ≤ UInt64.size - 5) :
    (∀ fault m', step m = .error fault m' → FailsInto m fault m') ∧
    (∀ m', step m = .error (.path .endOfInput) m' ↔ m.AwaitsInput ∧ m.waited = m') ∧
    (m.AwaitsInput → step m.waited = .error (.path .endOfInput) m.waited.waited) := by
  refine ⟨fun _ _ => failsInto_of_step ht, fun m' => ⟨fun h => ?_, ?_⟩, ?_⟩
  · have hwait := awaitsInput_of_step h
    rw [step_of_awaitsInput hwait] at h
    exact ⟨hwait, (EStateM.Result.error.inj h).2⟩
  · intro hkept
    rcases hkept with ⟨hwait, rfl⟩
    exact step_of_awaitsInput hwait
  · exact fun hwait => step_of_awaitsInput hwait.waited

theorem step_fault_next_loadV :
    FailsInto (start #[⟨0, .next, [5, 0]⟩] (.start #[⟨0, .number, [5]⟩, ⟨1, .number, [7]⟩] 1 []))
      (.path (.registerOutOfRange 5 1))
      ⟨#[⟨0, .next, [5, 0]⟩], 0,
        ⟨#[⟨0, .number, [5]⟩, ⟨1, .number, [7]⟩], #[1], 1, 0, false, [], #[]⟩, 2⟩ ∧
    step ⟨#[⟨0, .loadV, [0, 0]⟩], 0, ⟨#[], #[6], 0, 0, false, [], #[]⟩, 1⟩ =
      .error (.path .endOfInput)
        ⟨#[⟨0, .loadV, [0, 0]⟩], 0, ⟨#[], #[6], 0, 0, false, [], #[]⟩, 2⟩ :=
  ⟨(step_fault (by decide)).1 _ _ rfl,
    (step_fault (m := start #[⟨0, .loadV, [0, 0]⟩] ⟨#[], #[6], 9, 0, false, [], #[]⟩)
      (by decide)).2.2 ⟨⟨0, .loadV, [0, 0]⟩, 0, rfl, rfl, rfl, rfl, by decide, by decide, rfl⟩⟩

end TickMachine.Machine
