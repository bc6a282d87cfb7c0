import TickMachine.Proofs.Machine.Failure

/-! What a step adds to: the clock and the output. Neither is ever taken back, and a completed
instruction passes at least one tick, which is what ends a bounded run. -/

namespace TickMachine

namespace DataPath

variable {w : Word} {d d' : DataPath}

def Emits (d d' : DataPath) : Prop := d.output.toList <+: d'.output.toList

theorem emits_of_eq (h : d'.output = d.output) : d.Emits d' := by
  unfold Emits
  exact h ▸ List.prefix_refl _

theorem Emits.trans {d₁ d₂ : DataPath} (h₁ : d.Emits d₁) (h₂ : d₁.Emits d₂) : d.Emits d₂ :=
  List.IsPrefix.trans h₁ h₂

theorem write_emits : Ends (write w) d (fun _ d' => d.Emits d') fun _ d' => d.Emits d' := by
  refine ⟨?_, fun _ d' h => emits_of_eq (write_frame.2 _ _ h).output⟩
  have hends : Ends (write w) d (fun _ d' => d.Emits d') fun _ _ => True := by
    unfold write
    split
    · simp [Emits]
    · split <;> simp
      · exact fun s _ v _ d' h => emits_of_eq h.output
      · exact fun s _ v _ d' h => emits_of_eq h.output
      · exact fun s _ x _ v _ d' h => emits_of_eq h.output
  exact hends.1

end DataPath

namespace Machine

open DataPath

structure Grows (m m' : Machine) : Prop where
  tick : m.tick.toNat ≤ m'.tick.toNat
  output : m.path.Emits m'.path

variable {w : Word} {s : MicroStep} {d : DataPath} {m m' : Machine} {o : Outcome} {op : Opcode}

theorem Grows.refl (m : Machine) : Grows m m := ⟨Nat.le_refl _, emits_of_eq rfl⟩

theorem Grows.trans {m₁ m₂ : Machine} (h₁ : Grows m m₁) (h₂ : Grows m₁ m₂) : Grows m m₂ :=
  ⟨Nat.le_trans h₁.tick h₂.tick, h₁.output.trans h₂.output⟩

theorem signalOf_emits :
    Ends (signalOf w s) d (fun _ d' => d.Emits d') fun _ d' => d.Emits d' := by
  refine ⟨fun _ d' h => ?_, fun _ d' h => emits_of_eq (signalOf_fault_frame h).output⟩
  cases s with
  | latchRegister phase => exact emits_of_eq (latchRegister_frame.1 _ _ h).2.1
  | write => exact write_emits.1 _ _ h
  | _ => exact emits_of_eq ((signalOf_quiet_frame rfl).1 _ _ h).output

theorem signals_emit {steps : List MicroStep} :
    Ends (steps.forM (signalOf w)) d (fun _ => d.Emits) fun _ => d.Emits := by
  apply Ends.forM _ (emits_of_eq rfl)
  intro s _ d₁ h
  exact signalOf_emits.mono (fun _ _ h' => h.trans h') fun _ _ h' => h.trans h'

theorem control_passes (h : w.opcode.microProgram? = none) :
    Ends (execute w) m (fun o m' => o = .halted ∧ m' = m ∨ o = .executed w.opcode ∧
        1 ≤ w.opcode.cost ∧ m'.tick = m.tick + UInt64.ofNat w.opcode.cost ∧
        m.path.Emits m'.path)
      fun _ _ => True := by
  unfold execute
  cases hop : w.opcode <;> rw [hop] at h <;> cases h <;>
    simp [Opcode.microProgram?, Opcode.cost, latchFlag, Emits, UInt64.add_assoc]

theorem step_ok_cases (h : step m = .ok o m') :
    o = .halted ∧ m' = m ∨ ∃ op, o = .executed op ∧ 1 ≤ op.cost ∧
      m'.tick = m.tick + UInt64.ofNat op.cost ∧ m.path.Emits m'.path := by
  obtain ⟨w, -, hexec⟩ := step_eq_ok_iff.1 h
  cases hp : w.opcode.microProgram? with
  | none =>
    have hpass := (control_passes hp).1 _ _ hexec
    exact hpass.imp_right fun hdone => ⟨w.opcode, hdone⟩
  | some steps =>
    rw [execute_of_microProgram hp, bind_eq_ok_iff] at hexec
    obtain ⟨_, m₁, hsteps, hend⟩ := hexec
    obtain ⟨d, hd, rfl⟩ := microSteps_eq_ok_iff.1 hsteps
    obtain ⟨rfl, rfl⟩ := EStateM.Result.ok.inj hend
    have hcost : w.opcode.cost = steps.count .tick + 1 := Opcode.cost_eq_count hp
    refine .inr ⟨w.opcode, rfl, by omega, ?_, signals_emit.1 _ _ hd⟩
    rw [hcost, UInt64.ofNat_add, ← UInt64.add_assoc]
    rfl

theorem step_halted (h : step m = .ok .halted m') : m' = m := by
  obtain ⟨-, hm⟩ | ⟨op, ho, -⟩ := step_ok_cases h
  · exact hm
  · cases ho

theorem tick_of_executed (h : step m = .ok (.executed op) m') :
    1 ≤ op.cost ∧ m'.tick = m.tick + UInt64.ofNat op.cost := by
  obtain ⟨ho, -⟩ | ⟨_, ho, hone, htick, -⟩ := step_ok_cases h
  · cases ho
  · obtain rfl := Outcome.executed.inj ho
    exact ⟨hone, htick⟩

theorem toNat_tick_of_executed (ht : m.tick.toNat ≤ UInt64.size - 5)
    (h : step m = .ok (.executed op) m') : m'.tick.toNat = m.tick.toNat + op.cost := by
  rw [(tick_of_executed h).2]
  exact tick_later (d := m.path) (tick_add_lt ht op.cost_le)

theorem tick_lt_of_executed (ht : m.tick.toNat ≤ UInt64.size - 5)
    (h : step m = .ok (.executed op) m') : m.tick.toNat < m'.tick.toNat := by
  rw [toNat_tick_of_executed ht h]
  exact Nat.lt_add_of_pos_right (tick_of_executed h).1

theorem step_grows (ht : m.tick.toNat ≤ UInt64.size - 5) :
    Ends step m (fun _ => Grows m) fun _ => Grows m := by
  refine ⟨fun o m' h => ?_, fun fault m' h => ?_⟩
  · obtain ⟨-, rfl⟩ | ⟨op, rfl, -, -, hemits⟩ := step_ok_cases h
    · exact .refl m'
    · exact ⟨Nat.le_of_lt (tick_lt_of_executed ht h), hemits⟩
  · have hkeep := failsInto_of_step ht h
    obtain ⟨ticks, -, -, htick⟩ := hkeep.ticks
    exact ⟨by omega, emits_of_eq hkeep.output⟩

end Machine
end TickMachine
