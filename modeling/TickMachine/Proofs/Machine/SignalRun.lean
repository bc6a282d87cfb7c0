import TickMachine.Proofs.DataPath.Faults
import TickMachine.Proofs.DataPath.Frame
import TickMachine.Proofs.Machine.MicroProgram

/-! Micro-programs that stop at a signal. In all of them but that of `next` only the last signal
touches a store, and a signal that fails has touched none, so nothing is half done. -/

namespace TickMachine

open DataPath

def MicroStep.isQuiet : MicroStep → Bool
  | .latchRegister _ | .write => false
  | .latchAddress _ | .latchBuffer _ | .compare | .tick => true

theorem Opcode.isQuiet_of_mem_dropLast {op : Opcode} {steps : List MicroStep}
    (h : op.microProgram? = some steps) (hop : op ≠ .next) : ∀ s ∈ steps.dropLast, s.isQuiet := by
  cases op <;> cases h <;> first | exact absurd rfl hop | decide

namespace Word

variable {w : Word} {d d' : DataPath}

/-- `w` moves a pointer before it loads through it, and that leaves these registers. -/
def MovesPointer (w : Word) (d : DataPath) (registers : Array Int64) : Prop :=
  w.opcode = .next ∧ ∃ p a n i, w.arg? 1 = some p ∧ d.register? p = some a ∧
    n.toInt = a.toInt + 1 ∧ place? p d.registers.size = some i ∧
    d.registers.setIfInBounds i n = registers

theorem latchRegister_next_eq_ok_iff (h : w.opcode = .next) :
    latchRegister w .first d = .ok () d' ↔ ∃ p a n, w.arg? 1 = some p ∧ d.register? p = some a ∧
      n.toInt = a.toInt + 1 ∧ Assigns p n (d.latchFlag n) d' := by
  simp [latchRegister, registerResult, registerResult.increment, readsInput, source?, h, and_assoc]

theorem movesPointer_of_latchRegister (h : w.opcode = .next)
    (hd : latchRegister w .first d = .ok () d') : w.MovesPointer d d'.registers := by
  obtain ⟨p, a, n, hp, ha, hn, i, hi, rfl⟩ := (latchRegister_next_eq_ok_iff h).1 hd
  exact ⟨h, p, a, n, i, hp, ha, hn, hi, rfl⟩

theorem not_movesPointer_of_latchRegister {fault : DataPath.Fault} {registers : Array Int64}
    (hd : latchRegister w .first d = .error fault d') : ¬ w.MovesPointer d registers := by
  intro hmove
  rcases hmove with ⟨h, p, a, n, i, hp, ha, hn, hi, -⟩
  have hok := (latchRegister_next_eq_ok_iff h).2 ⟨p, a, n, hp, ha, hn, i, hi, rfl⟩
  rw [hd] at hok
  cases hok

end Word

namespace Machine

variable {w : Word} {s : MicroStep} {d d' : DataPath} {cause : DataPath.Fault}
  {steps before after : List MicroStep}

theorem mem_dropLast_of_mem {t : MicroStep} (h : t ∈ before) :
    t ∈ (before ++ s :: after).dropLast := by
  rw [List.dropLast_append_of_ne_nil (List.cons_ne_nil _ _)]
  exact List.mem_append_left _ h

theorem signalOf_quiet_frame (h : s.isQuiet) :
    Ends (signalOf w s) d (fun _ d' => d.SameStores d') fun _ d' => d.SameStores d' := by
  cases s with
  | latchAddress phase => exact latchAddress_frame.mono (fun _ _ h => h) fun _ _ h => h ▸ .refl _
  | latchBuffer phase => exact latchBuffer_frame.mono (fun _ _ h => h) fun _ _ h => h ▸ .refl _
  | compare => exact compare_frame.mono (fun _ _ h => h) fun _ _ h => h ▸ .refl _
  | tick => exact ends_pure.2 (.refl d)
  | latchRegister phase => cases h
  | write => cases h

theorem signalOf_fault_frame (h : signalOf w s d = .error cause d') : d.SameStores d' := by
  cases s with
  | latchRegister phase => exact latchRegister_frame.2 _ _ h
  | write => exact write_frame.2 _ _ h
  | _ => exact (signalOf_quiet_frame rfl).2 _ _ h

theorem signals_quiet_frame (hq : ∀ s ∈ steps, s.isQuiet)
    (h : steps.forM (signalOf w) d = .ok () d') : d.SameStores d' := by
  induction steps generalizing d with
  | nil =>
    obtain ⟨-, rfl⟩ := EStateM.Result.ok.inj h
    exact .refl d
  | cons s steps ih =>
    rw [forM_cons_apply, bind_eq_ok_iff] at h
    obtain ⟨_, d₁, hs, hd⟩ := h
    have h₁ := (signalOf_quiet_frame (hq s (List.mem_cons_self ..))).1 _ _ hs
    exact h₁.trans (ih (fun t ht => hq t (List.mem_cons_of_mem _ ht)) hd)

theorem signals_fault_frame {d₁ : DataPath} (hop : w.opcode ≠ .next)
    (hs : w.opcode.microProgram? = some (before ++ s :: after))
    (hb : before.forM (signalOf w) d = .ok () d₁) (hf : signalOf w s d₁ = .error cause d') :
    d.SameStores d' := by
  have hq : ∀ t ∈ before, t.isQuiet := fun t ht =>
    Opcode.isQuiet_of_mem_dropLast hs hop t (mem_dropLast_of_mem ht)
  exact (signals_quiet_frame hq hb).trans (signalOf_fault_frame hf)

theorem next_signals_fault_frame {d₁ : DataPath} (hop : w.opcode = .next)
    (hs : w.opcode.microProgram? = some (before ++ s :: after))
    (hb : before.forM (signalOf w) d = .ok () d₁) (hf : signalOf w s d₁ = .error cause d') :
    (d'.cells = d.cells ∧ d'.input = d.input ∧ d'.output = d.output) ∧
      (w.MovesPointer d d'.registers ∨
        (∀ registers, ¬ w.MovesPointer d registers) ∧ d'.registers = d.registers) := by
  rw [hop] at hs
  have hsteps := Option.some.inj hs
  have hframe := signalOf_fault_frame hf
  -- The first signal moves the pointer, and those between it and the load are quiet.
  cases before with
  | nil =>
    obtain ⟨rfl, -⟩ := List.cons.inj hsteps
    obtain ⟨-, rfl⟩ := pure_eq_ok_iff.1 hb
    exact ⟨⟨hframe.cells, hframe.input, hframe.output⟩,
      .inr ⟨fun _ => Word.not_movesPointer_of_latchRegister hf, hframe.registers⟩⟩
  | cons t before =>
    obtain ⟨rfl, hrest⟩ := List.cons.inj hsteps
    rw [forM_cons_apply, bind_eq_ok_iff] at hb
    obtain ⟨_, d₂, hmove, hb⟩ := hb
    have hq : ∀ t ∈ before, t.isQuiet := by
      intro t ht
      have hmem : t ∈ (before ++ s :: after).dropLast := mem_dropLast_of_mem ht
      rw [← List.append_eq, ← hrest] at hmem
      clear ht
      revert t
      decide
    have hrun := (signals_quiet_frame hq hb).trans hframe
    have hptr := Word.movesPointer_of_latchRegister hop hmove
    obtain ⟨p, a, n, -, -, -, hassign⟩ := (Word.latchRegister_next_eq_ok_iff hop).1 hmove
    rw [← hrun.registers] at hptr
    exact ⟨⟨hrun.cells.trans hassign.cells, hrun.input.trans hassign.input,
      hrun.output.trans hassign.output⟩, .inl hptr⟩

theorem signalOf_tells (hs : w.opcode.microProgram? = some steps) (h : s ∈ steps) :
    Ends (signalOf w s) d (fun _ _ => True) fun e d' => e.Tells w d' := by
  have htells : Ends (signalOf w s) d (fun _ _ => True) fun e _ => e.Tells w d := by
    cases s with
    | latchAddress phase => exact latchAddress_tells hs h
    | latchBuffer phase => exact latchBuffer_tells hs h
    | latchRegister phase => exact latchRegister_tells hs h
    | write => exact write_tells hs h
    | compare => exact compare_tells hs h
    | tick => exact ends_pure.2 trivial
  exact ⟨fun _ _ _ => trivial, fun e d' he => (htells.2 e d' he).congr (signalOf_fault_frame he)⟩

end Machine
end TickMachine
