import TickMachine.Proofs.Machine.MicroProgram

/-! What the instructions with a micro-program mean, each as one change of the data path. The
machine carries out such an instruction if and only if its operands are there, its registers and
cells exist, its results fit and its input is not at the end; it then makes just this change, moves
on to the next word and counts the ticks of the instruction. -/

namespace TickMachine

open DataPath

/-- The rule of each instruction, from the data path before it to the one after it. Registers and
cells on the right are those before the instruction; a value that is computed is exact. -/
def Word.Performs (w : Word) (d d' : DataPath) : Prop :=
  match w.opcode with
  | .mov => ∃ r v, w.arg? 0 = some r ∧ w.arg? 1 = some v ∧ Assigns r v d d'
  | .loadV => ∃ r a, w.arg? 0 = some r ∧ w.arg? 1 = some a ∧
      if a = 0 then
        ∃ c rest, d.input = c :: rest ∧
          Assigns r (Int64.ofNat c.toNat) { d with address := 0, input := rest } d'
      else ∃ v, d.cell? a = some v ∧ Assigns r v { d with address := a } d'
  | .loadR => ∃ r p a v, w.arg? 0 = some r ∧ w.arg? 1 = some p ∧
      d.register? p = some a ∧ d.cell? a = some v ∧ Assigns r v { d with address := a } d'
  | .storeV => ∃ a s v, w.arg? 0 = some a ∧ w.arg? 1 = some s ∧ d.register? s = some v ∧
      if a = 1 then { d with address := 1, output := d.output.push v } = d'
      else Stores v { d with address := a } d'
  | .storeR => ∃ p s a v, w.arg? 0 = some p ∧ w.arg? 1 = some s ∧
      d.register? p = some a ∧ d.register? s = some v ∧ Stores v { d with address := a } d'
  | .next => ∃ r p a n v d₁, w.arg? 0 = some r ∧ w.arg? 1 = some p ∧ d.register? p = some a ∧
      n.toInt = a.toInt + 1 ∧ Assigns p n (d.latchFlag n) d₁ ∧ d.cell? n = some v ∧
      Assigns r v { d₁ with address := n } d'
  | .cmp => ∃ r v x, w.arg? 0 = some r ∧ w.arg? 1 = some v ∧ d.register? r = some x ∧
      { d with isZero := x = v } = d'
  | .inc => ∃ r x n, w.arg? 0 = some r ∧ d.register? r = some x ∧ n.toInt = x.toInt + 1 ∧
      Assigns r n (d.latchFlag n) d'
  | .addMmr => ∃ a b s x y n, w.arg? 0 = some a ∧ w.arg? 1 = some b ∧ w.arg? 2 = some s ∧
      d.cell? b = some x ∧ d.register? s = some y ∧ n.toInt = x.toInt + y.toInt ∧
      Stores n { d.latchFlag n with address := a, buffer := x } d'
  | .modRrv => ∃ r s v x n, w.arg? 0 = some r ∧ w.arg? 1 = some s ∧ w.arg? 2 = some v ∧
      d.register? s = some x ∧ v ≠ 0 ∧ n.toInt = x.toInt.fmod v.toInt ∧
      Assigns r n { d.latchFlag n with buffer := s } d'
  | .linear => ∃ r v s x n, w.arg? 0 = some r ∧ w.arg? 1 = some v ∧ w.arg? 2 = some s ∧
      d.register? s = some x ∧ n.toInt = v.toInt * x.toInt ∧
      Assigns r n { d.latchFlag n with buffer := v } d'
  | .linearCont => ∃ r v s x y k n, w.arg? 0 = some r ∧ w.arg? 1 = some v ∧ w.arg? 2 = some s ∧
      d.register? s = some x ∧ d.register? r = some y ∧ k.toInt = v.toInt * x.toInt ∧
      n.toInt = k.toInt + y.toInt ∧
      Assigns r n { (d.latchFlag k).latchFlag n with buffer := k } d'
  | _ => False

namespace Machine

variable {w : Word} {d d' : DataPath} {steps : List MicroStep}

theorem mov_signals (h : w.opcode = .mov) :
    [.latchRegister .first].forM (signalOf w) d = .ok () d' ↔ w.Performs d d' := by
  simp [forM_cons_apply, signalOf, latchRegister, registerResult, Word.readsInput, Word.source?,
    Word.Performs, h, and_assoc]

theorem loadV_signals (h : w.opcode = .loadV) :
    [.latchAddress .first, .tick, .latchRegister .first].forM (signalOf w) d = .ok () d' ↔
      w.Performs d d' := by
  cases ha : w.arg? 1 with
  | none => simp [forM_cons_apply, signalOf, latchAddress, Word.Performs, h, ha]
  | some a =>
    by_cases h0 : a = 0 <;>
      simp [forM_cons_apply, signalOf, latchAddress, latchRegister, registerResult, cell?,
        Word.readsInput, Word.source?, Word.Performs, h, ha, h0, and_assoc]

theorem loadR_signals (h : w.opcode = .loadR) :
    [.latchAddress .first, .tick, .latchRegister .first].forM (signalOf w) d = .ok () d' ↔
      w.Performs d d' := by
  simp [forM_cons_apply, signalOf, latchAddress, latchRegister, registerResult, cell?,
    Word.readsInput, Word.source?, Word.Performs, h, and_assoc]
  constructor
  · intro hrun
    rcases hrun with ⟨p, hp, a, ha, r, hr, v, hv, hd⟩
    exact ⟨r, hr, p, hp, a, ha, v, hv, hd⟩
  · intro hrule
    rcases hrule with ⟨r, hr, p, hp, a, ha, v, hv, hd⟩
    exact ⟨p, hp, a, ha, r, hr, v, hv, hd⟩

theorem storeV_signals (h : w.opcode = .storeV) :
    [.latchAddress .first, .tick, .write].forM (signalOf w) d = .ok () d' ↔ w.Performs d d' := by
  cases ha : w.arg? 0 with
  | none => simp [forM_cons_apply, signalOf, latchAddress, Word.Performs, h, ha]
  | some a =>
    by_cases h1 : a = 1 <;>
      simp [forM_cons_apply, signalOf, latchAddress, write, register?, Word.writesOutput,
        Word.target?, Word.Performs, h, ha, h1, and_assoc]

theorem storeR_signals (h : w.opcode = .storeR) :
    [.latchAddress .first, .tick, .write].forM (signalOf w) d = .ok () d' ↔ w.Performs d d' := by
  simp [forM_cons_apply, signalOf, latchAddress, write, register?, Word.writesOutput,
    Word.target?, Word.Performs, h, and_assoc]
  constructor
  · intro hrun
    rcases hrun with ⟨p, hp, a, ha, s, hs, v, hv, hd⟩
    exact ⟨p, hp, s, hs, a, ha, v, hv, hd⟩
  · intro hrule
    rcases hrule with ⟨p, hp, s, hs, a, ha, v, hv, hd⟩
    exact ⟨p, hp, a, ha, s, hs, v, hv, hd⟩

theorem next_signals (h : w.opcode = .next) :
    [.latchRegister .first, .tick, .latchAddress .first, .tick, .latchRegister .second].forM
      (signalOf w) d = .ok () d' ↔ w.Performs d d' := by
  simp only [forM_cons_apply, signalOf, latchRegister, Word.readsInput, Word.source?, h,
    reduceCtorEq, ↓reduceIte, Option.none_beq_some, Bool.false_eq_true, registerResult,
    registerResult.increment, bind_pure_comp, bind_assoc, bind_map_left, List.forM_eq_forM,
    List.forM_cons, latchAddress, List.forM_nil, map_bind, id_map', pure_bind, bind_eq_ok_iff,
    operand_eq_ok_iff, readRegister_eq_ok_iff, alu_eq_ok_iff, Alu.compute_add_eq_ok_iff,
    Int64.reduceToInt, writeRegister_eq_ok_iff, modify_apply, EStateM.Result.ok.injEq, true_and,
    readCell_eq_ok_iff, cell?, Option.map_eq_some_iff, and_assoc, exists_and_left, exists_eq_left',
    exists_const, Word.Performs]
  constructor
  · intro hrun
    rcases hrun with ⟨p, hp, a, ha, n, hn, d₁, h₁, p', hp', n', hn', r, hr, v, hv, hd⟩
    -- The pointer operand is read twice, and the register holds the new value the second time.
    obtain rfl : p = p' := Option.some.inj (hp.symm.trans hp')
    obtain rfl : n = n' := Option.some.inj (h₁.register?.symm.trans hn')
    rw [h₁.cells] at hv
    exact ⟨r, hr, p, hp, a, ha, n, hn, v, d₁, h₁, hv, hd⟩
  · intro hrule
    rcases hrule with ⟨r, hr, p, hp, a, ha, n, hn, v, d₁, h₁, hv, hd⟩
    refine ⟨p, hp, a, ha, n, hn, d₁, h₁, p, hp, n, h₁.register?, r, hr, v, ?_, hd⟩
    rw [h₁.cells]
    exact hv

theorem cmp_signals (h : w.opcode = .cmp) :
    [.compare].forM (signalOf w) d = .ok () d' ↔ w.Performs d d' := by
  simp [forM_cons_apply, signalOf, DataPath.compare, latchFlag, Alu.flagAfter_cmp,
    Word.Performs, h, and_assoc]
  constructor
  · intro hrun
    rcases hrun with ⟨r, hr, x, hx, v, hv, hd⟩
    exact ⟨r, hr, v, hv, x, hx, hd⟩
  · intro hrule
    rcases hrule with ⟨r, hr, v, hv, x, hx, hd⟩
    exact ⟨r, hr, x, hx, v, hv, hd⟩

theorem inc_signals (h : w.opcode = .inc) :
    [.latchRegister .first].forM (signalOf w) d = .ok () d' ↔ w.Performs d d' := by
  simp [forM_cons_apply, signalOf, latchRegister, registerResult, registerResult.increment,
    Word.readsInput, Word.source?, Word.Performs, h, and_assoc]

theorem addMmr_signals (h : w.opcode = .addMmr) :
    [.latchAddress .first, .tick, .latchBuffer .first, .tick, .latchAddress .second, .tick,
      .write].forM (signalOf w) d = .ok () d' ↔ w.Performs d d' := by
  simp [forM_cons_apply, signalOf, latchAddress, latchBuffer, write, cell?, register?, latchFlag,
    Word.writesOutput, Word.target?, Word.Performs, h, and_assoc]
  constructor
  · intro hrun
    rcases hrun with ⟨b, hb, x, hx, a, ha, s, hs, y, hy, n, hn, hd⟩
    exact ⟨a, ha, b, hb, s, hs, x, hx, y, hy, n, hn, hd⟩
  · intro hrule
    rcases hrule with ⟨a, ha, b, hb, s, hs, x, hx, y, hy, n, hn, hd⟩
    exact ⟨b, hb, x, hx, a, ha, s, hs, y, hy, n, hn, hd⟩

theorem modRrv_signals (h : w.opcode = .modRrv) :
    [.latchBuffer .first, .tick, .latchRegister .first].forM (signalOf w) d = .ok () d' ↔
      w.Performs d d' := by
  simp [forM_cons_apply, signalOf, latchBuffer, latchRegister, registerResult, register?, latchFlag,
    Word.readsInput, Word.source?, Word.Performs, h, and_assoc]
  constructor
  · intro hrun
    rcases hrun with ⟨s, hs, s', hs', x, hx, r, hr, v, hv, h0, n, hn, hd⟩
    obtain rfl : s = s' := Option.some.inj (hs.symm.trans hs')
    exact ⟨r, hr, s, hs, v, hv, x, hx, h0, n, hn, hd⟩
  · intro hrule
    rcases hrule with ⟨r, hr, s, hs, v, hv, x, hx, h0, n, hn, hd⟩
    exact ⟨s, hs, s, hs, x, hx, r, hr, v, hv, h0, n, hn, hd⟩

theorem linear_signals (h : w.opcode = .linear) :
    [.latchBuffer .first, .tick, .latchRegister .first].forM (signalOf w) d = .ok () d' ↔
      w.Performs d d' := by
  simp [forM_cons_apply, signalOf, latchBuffer, latchRegister, registerResult, register?, latchFlag,
    Word.readsInput, Word.source?, Word.Performs, h, and_assoc]
  constructor
  · intro hrun
    rcases hrun with ⟨v, hv, s, hs, x, hx, r, hr, n, hn, hd⟩
    exact ⟨r, hr, v, hv, s, hs, x, hx, n, hn, hd⟩
  · intro hrule
    rcases hrule with ⟨r, hr, v, hv, s, hs, x, hx, n, hn, hd⟩
    exact ⟨v, hv, s, hs, x, hx, r, hr, n, hn, hd⟩

theorem linearCont_signals (h : w.opcode = .linearCont) :
    [.latchBuffer .first, .tick, .latchBuffer .second, .tick, .latchRegister .first].forM
      (signalOf w) d = .ok () d' ↔ w.Performs d d' := by
  simp [forM_cons_apply, signalOf, latchBuffer, latchRegister, registerResult, register?, latchFlag,
    Word.readsInput, Word.source?, Word.Performs, h, and_assoc]
  constructor
  · intro hrun
    rcases hrun with ⟨v, hv, s, hs, x, hx, k, hk, r, hr, y, hy, n, hn, hd⟩
    exact ⟨r, hr, v, hv, s, hs, x, hx, y, hy, k, hk, n, hn, hd⟩
  · intro hrule
    rcases hrule with ⟨r, hr, v, hv, s, hs, x, hx, y, hy, k, hk, n, hn, hd⟩
    exact ⟨v, hv, s, hs, x, hx, k, hk, r, hr, y, hy, n, hn, hd⟩

theorem signals_eq_ok_iff (h : w.opcode.microProgram? = some steps) :
    steps.forM (signalOf w) d = .ok () d' ↔ w.Performs d d' := by
  cases hop : w.opcode <;> rw [hop] at h <;> cases h
  case mov => exact mov_signals hop
  case loadV => exact loadV_signals hop
  case loadR => exact loadR_signals hop
  case storeV => exact storeV_signals hop
  case storeR => exact storeR_signals hop
  case next => exact next_signals hop
  case cmp => exact cmp_signals hop
  case inc => exact inc_signals hop
  case addMmr => exact addMmr_signals hop
  case modRrv => exact modRrv_signals hop
  case linear => exact linear_signals hop
  case linearCont => exact linearCont_signals hop

theorem execute_eq_ok_iff {m m' : Machine} {o : Outcome}
    (h : w.opcode.microProgram? = some steps) :
    execute w m = .ok o m' ↔ o = .executed w.opcode ∧ ∃ d, w.Performs m.path d ∧
      { m.later d w.opcode.cost with counter := m.counter + 1 } = m' := by
  have hcost : w.opcode.cost = steps.count .tick + 1 := Opcode.cost_eq_count h
  rw [execute_of_microProgram h, bind_eq_ok_iff]
  simp only [microSteps_eq_ok_iff, signals_eq_ok_iff h]
  constructor
  · intro hrun
    rcases hrun with ⟨_, _, ⟨d, hd, rfl⟩, hend⟩
    obtain ⟨rfl, rfl⟩ := EStateM.Result.ok.inj hend
    refine ⟨rfl, d, hd, ?_⟩
    rw [hcost, later, later, UInt64.ofNat_add, ← UInt64.add_assoc]
    rfl
  · intro hrule
    rcases hrule with ⟨rfl, d, hd, rfl⟩
    refine ⟨⟨⟩, _, ⟨d, hd, rfl⟩, ?_⟩
    rw [hcost, later, later, UInt64.ofNat_add, ← UInt64.add_assoc]
    rfl

/-- One step of a micro-programmed instruction is the rule of the instruction. -/
theorem step_eq_executed_iff {m m' : Machine} {o : Outcome} (hw : m.current? = some w)
    (hp : w.opcode.microProgram?.isSome) (ht : m.tick.toNat ≤ UInt64.size - 5) :
    step m = .ok o m' ↔ o = .executed w.opcode ∧ w.Performs m.path m'.path ∧
      m'.program = m.program ∧ m'.counter = m.counter + 1 ∧
      m'.tick.toNat = m.tick.toNat + w.opcode.cost := by
  obtain ⟨steps, hs⟩ := Option.isSome_iff_exists.1 hp
  have hcost (d : DataPath) :
      (m.later d w.opcode.cost).tick.toNat = m.tick.toNat + w.opcode.cost :=
    tick_later (tick_add_lt ht w.opcode.cost_le)
  rw [step_of_current hw, execute_eq_ok_iff hs]
  refine and_congr_right fun _ => ⟨?_, ?_⟩
  · intro hrun
    rcases hrun with ⟨d, hd, rfl⟩
    exact ⟨hd, rfl, rfl, hcost d⟩
  · obtain ⟨program, counter, d, tick⟩ := m'
    intro hrule
    rcases hrule with ⟨hd, rfl, rfl, htick⟩
    refine ⟨d, hd, ?_⟩
    obtain rfl : (m.later d w.opcode.cost).tick = tick :=
      UInt64.toNat_inj.1 ((hcost d).trans htick.symm)
    rfl

theorem step_next_onto_pointer :
    step (start #[⟨0, .next, [0, 0]⟩]
        (.start #[⟨0, .number, [5]⟩, ⟨1, .number, [7]⟩] 1 ['a'])) =
      .ok (.executed .next) ⟨#[⟨0, .next, [0, 0]⟩], 1,
        ⟨#[⟨0, .number, [5]⟩, ⟨1, .number, [7]⟩], #[7], 1, 0, false, ['a'], #[]⟩, 3⟩ :=
  (step_eq_executed_iff (w := ⟨0, .next, [0, 0]⟩) rfl rfl (by decide)).2
    ⟨rfl, ⟨0, 0, 0, 1, 7, _, rfl, rfl, rfl, rfl, ⟨0, rfl, rfl⟩, rfl, ⟨0, rfl, rfl⟩⟩, rfl, rfl, rfl⟩

end Machine
end TickMachine
