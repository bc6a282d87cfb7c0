import TickMachine.Proofs.DataPath.Actions

/-! What signals leave alone. The signals of the latches and of the comparison touch no store at
all, and the two that do touch one have not done so when they end in a fault. -/

namespace TickMachine.DataPath

structure SameStores (d d' : DataPath) : Prop where
  cells : d'.cells = d.cells
  registers : d'.registers = d.registers
  input : d'.input = d.input
  output : d'.output = d.output

variable {w : Word} {phase : Phase} {d : DataPath}

@[simp] theorem SameStores.refl (d : DataPath) : d.SameStores d := ⟨rfl, rfl, rfl, rfl⟩

theorem SameStores.trans {d₁ d₂ : DataPath} (h₁ : d.SameStores d₁) (h₂ : d₁.SameStores d₂) :
    d.SameStores d₂ :=
  ⟨h₂.cells.trans h₁.cells, h₂.registers.trans h₁.registers, h₂.input.trans h₁.input,
    h₂.output.trans h₁.output⟩

@[simp] theorem sameStores_latches (address buffer : Int64) (isZero : Bool) :
    d.SameStores { d with address, buffer, isZero } := ⟨rfl, rfl, rfl, rfl⟩

@[simp] theorem sameStores_latchFlag (v : Int64) : d.SameStores (d.latchFlag v) :=
  ⟨rfl, rfl, rfl, rfl⟩

theorem latchAddress_frame :
    Ends (latchAddress w phase) d (fun _ d' => d.SameStores d') fun _ d' => d' = d := by
  unfold latchAddress
  split <;> simp

theorem latchBuffer_frame :
    Ends (latchBuffer w phase) d (fun _ d' => d.SameStores d') fun _ d' => d' = d := by
  unfold latchBuffer
  split <;> simp [latchFlag]

theorem compare_frame :
    Ends (DataPath.compare w) d (fun _ d' => d.SameStores d') fun _ d' => d' = d := by
  unfold DataPath.compare
  split <;> simp

theorem registerResult_frame :
    Ends (registerResult w phase) d (fun _ d' => d.SameStores d') fun _ d' => d' = d := by
  unfold registerResult registerResult.increment
  split <;> simp

theorem latchRegister_frame :
    Ends (latchRegister w phase) d
      (fun _ d' => d'.cells = d.cells ∧ d'.output = d.output ∧
        d'.registers.size = d.registers.size) fun _ d' => d.SameStores d' := by
  unfold latchRegister
  split
  · simp
    exact fun r _ c rest d' _ h => ⟨h.cells, h.output, h.size⟩
  · rw [ends_bind]
    refine registerResult_frame.mono ?_ ?_
    · rintro ⟨r, v⟩ d₁ h
      simp [h]
      intro d' h'
      exact ⟨h'.cells.trans h.cells, h'.output.trans h.output, by rw [h'.size, h.registers]⟩
    · rintro _ _ rfl
      exact .refl _

theorem write_frame :
    Ends (write w) d (fun _ d' => d'.registers = d.registers ∧ d'.input = d.input)
      fun _ d' => d.SameStores d' := by
  unfold write
  split
  · simp
  · split <;> simp
    · exact fun s _ v _ d' h => ⟨h.registers, h.input⟩
    · exact fun s _ v _ d' h => ⟨h.registers, h.input⟩
    · exact fun s _ x _ v _ d' h => ⟨h.registers, h.input⟩

end TickMachine.DataPath
