import TickMachine.Proofs.Machine.Failure
import TickMachine.Proofs.Machine.Flow

/-! What passes the ports in a step. A load from the input port takes the first character of the
input, a store to the output port adds a code to the output, and no other step, nor one that halts
or fails, changes either of them. -/

namespace TickMachine

open DataPath

variable {w : Word} {d d' : DataPath}

structure Word.Transfers (w : Word) (d d' : DataPath) : Prop where
  reads : w.readsInput → ∃ c, d.input = c :: d'.input
  keepsInput : w.readsInput = false → d'.input = d.input
  writes : w.writesOutput → ∃ code, d'.output = d.output.push code
  keepsOutput : w.writesOutput = false → d'.output = d.output

namespace Word

theorem Performs.input_of_ne (h : w.Performs d d') (hop : w.opcode ≠ .loadV) :
    d'.input = d.input := by
  unfold Performs at h
  cases ho : w.opcode <;> simp only [ho] at h
  case loadV => exact absurd ho hop
  all_goals grind [→ Assigns.input, → Stores.input, latchFlag]

theorem Performs.output_of_ne (h : w.Performs d d') (hop : w.opcode ≠ .storeV) :
    d'.output = d.output := by
  unfold Performs at h
  cases ho : w.opcode <;> simp only [ho] at h
  case storeV => exact absurd ho hop
  all_goals grind [→ Assigns.output, → Stores.output, latchFlag]

theorem writesOutput_of_loadV (hop : w.opcode = .loadV) : w.writesOutput = false :=
  Bool.eq_false_iff.2 fun hwrites => by cases hop.symm.trans (writesOutput_iff.1 hwrites).1

theorem performs_loadV (hop : w.opcode = .loadV) (h : w.Performs d d') : w.Transfers d d' := by
  have hwrites := writesOutput_of_loadV hop
  have houtput := h.output_of_ne (by simp [hop])
  simp only [Performs, hop] at h
  obtain ⟨r, a, -, ha, h⟩ := h
  by_cases h0 : a = 0
  · have hreads : w.readsInput := readsInput_iff.2 ⟨hop, h0 ▸ ha⟩
    rw [if_pos h0] at h
    obtain ⟨c, rest, hinput, hset⟩ := h
    refine ⟨fun _ => ⟨c, ?_⟩, by simp [hreads], by simp [hwrites], fun _ => houtput⟩
    rw [hset.input, hinput]
  · have hreads : w.readsInput = false := by
      refine Bool.eq_false_iff.2 fun hreads => h0 ?_
      exact Option.some.inj (ha.symm.trans (readsInput_iff.1 hreads).2)
    rw [if_neg h0] at h
    obtain ⟨v, -, hset⟩ := h
    exact ⟨by simp [hreads], fun _ => hset.input, by simp [hwrites], fun _ => houtput⟩

theorem performs_storeV (hop : w.opcode = .storeV) (h : w.Performs d d') : w.Transfers d d' := by
  have hreads : w.readsInput = false :=
    Bool.eq_false_iff.2 fun hreads => by cases hop.symm.trans (readsInput_iff.1 hreads).1
  have hinput := h.input_of_ne (by simp [hop])
  simp only [Performs, hop] at h
  obtain ⟨a, s, v, ha, -, -, h⟩ := h
  by_cases h1 : a = 1
  · have hwrites : w.writesOutput := writesOutput_iff.2 ⟨hop, h1 ▸ ha⟩
    rw [if_pos h1] at h
    obtain rfl := h
    exact ⟨by simp [hreads], fun _ => hinput, fun _ => ⟨v, rfl⟩, by simp [hwrites]⟩
  · have hwrites : w.writesOutput = false := by
      refine Bool.eq_false_iff.2 fun hwrites => h1 ?_
      exact Option.some.inj (ha.symm.trans (writesOutput_iff.1 hwrites).2)
    rw [if_neg h1] at h
    exact ⟨by simp [hreads], fun _ => hinput, by simp [hwrites], fun _ => h.output⟩

theorem transfers_of_ne (hload : w.opcode ≠ .loadV) (hstore : w.opcode ≠ .storeV)
    (hinput : d'.input = d.input) (houtput : d'.output = d.output) : w.Transfers d d' where
  reads hreads := absurd (readsInput_iff.1 hreads).1 hload
  keepsInput _ := hinput
  writes hwrites := absurd (writesOutput_iff.1 hwrites).1 hstore
  keepsOutput _ := houtput

theorem Performs.transfers (h : w.Performs d d') : w.Transfers d d' := by
  by_cases hload : w.opcode = .loadV
  · exact performs_loadV hload h
  · by_cases hstore : w.opcode = .storeV
    · exact performs_storeV hstore h
    · exact transfers_of_ne hload hstore (h.input_of_ne hload) (h.output_of_ne hstore)

theorem Directs.transfers {m m' : Machine} (h : w.Directs m m') : w.Transfers m.path m'.path := by
  have hjump := h.isJump
  have hload : w.opcode ≠ .loadV := fun hop => by rw [hop] at hjump; cases hjump
  have hstore : w.opcode ≠ .storeV := fun hop => by rw [hop] at hjump; cases hjump
  unfold Directs at h
  cases hop : w.opcode <;> simp only [hop] at h
  case jmp =>
    obtain ⟨t, c, -, -, rfl⟩ := h
    exact transfers_of_ne hload hstore rfl rfl
  case jz =>
    obtain ⟨t, c, -, -, rfl⟩ := h
    exact transfers_of_ne hload hstore rfl rfl
  case jzR =>
    obtain ⟨t, c, r, v, -, -, -, -, rfl⟩ := h
    exact transfers_of_ne hload hstore rfl rfl

end Word

namespace Machine

variable {m m' : Machine} {op : Opcode} {fault : Fault}

theorem transfers_of_executed (h : step m = .ok (.executed op) m') :
    ∃ w, m.current? = some w ∧ w.Transfers m.path m'.path := by
  obtain ⟨w, hw, hexec⟩ := step_eq_ok_iff.1 h
  refine ⟨w, hw, ?_⟩
  cases hp : w.opcode.microProgram? with
  | none =>
    obtain ⟨-, ho, -⟩ | ⟨-, hrule⟩ := (execute_control_eq_ok_iff hp).1 hexec
    · cases ho
    · exact hrule.transfers
  | some steps =>
    obtain ⟨-, d, hd, rfl⟩ := (execute_eq_ok_iff hp).1 hexec
    exact hd.transfers

theorem ports_of_error (h : step m = .error fault m') :
    m'.path.input = m.path.input ∧ m'.path.output = m.path.output := by
  obtain ⟨-, -, rfl⟩ | ⟨w, -, -, rfl, -⟩ |
    ⟨w, before, s, after, d₁, cause, d, -, hs, hb, hf, -, rfl⟩ := step_error_cases h
  · exact ⟨rfl, rfl⟩
  · exact ⟨rfl, rfl⟩
  · by_cases hop : w.opcode = .next
    · exact (next_signals_fault_frame hop hs hb hf).1.2
    · have hsame := signals_fault_frame hop hs hb hf
      exact ⟨hsame.input, hsame.output⟩

end Machine
end TickMachine
