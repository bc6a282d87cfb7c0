import TickMachine.Proofs.DataPath.Frame

/-! What the faults of signals tell. A signal in the micro-program of a word never lacks a rule, and
whatever else stops it is true of the word and of the data path it stops at. -/

namespace TickMachine

namespace Word

variable {w : Word}

def NamesRegister (w : Word) (register : Int64) : Prop :=
  ∃ position, w.opcode.signature[position]? = some .register ∧ w.arg? position = some register

theorem readsInput_iff : w.readsInput ↔ w.opcode = .loadV ∧ w.arg? 1 = some 0 := by
  unfold readsInput source?
  by_cases h : w.opcode = .loadV
  · cases ha : w.arg? 1 with
    | none => simp [h]
    | some a => by_cases h0 : a = 0 <;> simp [h, h0]
  · simp [h]

theorem writesOutput_iff : w.writesOutput ↔ w.opcode = .storeV ∧ w.arg? 0 = some 1 := by
  unfold writesOutput target?
  by_cases h : w.opcode = .storeV
  · cases ha : w.arg? 0 with
    | none => simp [h]
    | some a => by_cases h1 : a = 1 <;> simp [h, h1]
  · simp [h]

end Word

namespace DataPath

def Fault.Tells (w : Word) (d : DataPath) : Fault → Prop
  | .noRegisters | .noRule _ _ | .noPhase _ _ _ => False
  | .missingOperand _ _ position => position < w.opcode.signature.length ∧ w.arg? position = none
  | .registerOutOfRange register count =>
    w.NamesRegister register ∧ count = d.registers.size ∧ place? register count = none
  | .addressOutOfRange address size => size = d.cells.size ∧ place? address size = none
  | .endOfInput => w.readsInput ∧ d.input = [] ∧
    ∃ r i, w.arg? 0 = some r ∧ place? r d.registers.size = some i
  | .alu _ => True

theorem Fault.Tells.congr {w : Word} {d d' : DataPath} {fault : Fault} (h : fault.Tells w d)
    (hd : d.SameStores d') : fault.Tells w d' := by
  cases fault <;> simp only [Fault.Tells, hd.cells, hd.registers, hd.input] at h ⊢ <;> exact h

variable {w : Word} {phase : Phase} {d : DataPath} {steps : List MicroStep}

theorem latchAddress_tells (hs : w.opcode.microProgram? = some steps)
    (h : .latchAddress phase ∈ steps) :
    Ends (latchAddress w phase) d (fun _ _ => True) fun e _ => e.Tells w d := by
  unfold latchAddress
  cases hop : w.opcode <;> rw [hop] at hs <;> cases hs <;> cases phase <;> simp at h ⊢
  all_goals grind [Fault.Tells, Word.NamesRegister, Opcode.signature]

theorem latchBuffer_tells (hs : w.opcode.microProgram? = some steps)
    (h : .latchBuffer phase ∈ steps) :
    Ends (latchBuffer w phase) d (fun _ _ => True) fun e _ => e.Tells w d := by
  unfold latchBuffer
  cases hop : w.opcode <;> rw [hop] at hs <;> cases hs <;> cases phase <;> simp at h ⊢
  all_goals grind [Fault.Tells, Word.NamesRegister, Opcode.signature]

theorem registerResult_tells (hs : w.opcode.microProgram? = some steps)
    (h : .latchRegister phase ∈ steps) :
    Ends (registerResult w phase) d (fun x d' => w.NamesRegister x.1 ∧ d'.registers = d.registers)
      fun e _ => e.Tells w d := by
  unfold registerResult registerResult.increment
  cases hop : w.opcode <;> rw [hop] at hs <;> cases hs <;> cases phase <;> simp at h ⊢
  all_goals grind [Fault.Tells, Word.NamesRegister, Opcode.signature, latchFlag]

theorem latchRegister_tells (hs : w.opcode.microProgram? = some steps)
    (h : .latchRegister phase ∈ steps) :
    Ends (latchRegister w phase) d (fun _ _ => True) fun e _ => e.Tells w d := by
  unfold latchRegister
  split
  · rename_i hreads
    have hop := (Word.readsInput_iff.1 hreads).1
    simp
    grind [Fault.Tells, Word.NamesRegister, Opcode.signature]
  · rw [ends_bind]
    refine (registerResult_tells hs h).mono ?_ fun _ _ h => h
    rintro ⟨r, v⟩ d₁ ⟨hr, hd⟩
    simp [Fault.Tells, hd]
    exact fun h => ⟨hr, h⟩

theorem write_tells (hs : w.opcode.microProgram? = some steps) (h : .write ∈ steps) :
    Ends (write w) d (fun _ _ => True) fun e _ => e.Tells w d := by
  unfold write
  split
  · rename_i hwrites
    have hop := (Word.writesOutput_iff.1 hwrites).1
    simp
    grind [Fault.Tells, Word.NamesRegister, Opcode.signature]
  · cases hop : w.opcode <;> rw [hop] at hs <;> cases hs <;> simp at h ⊢
    all_goals grind [Fault.Tells, Word.NamesRegister, Opcode.signature, latchFlag]

theorem compare_tells (hs : w.opcode.microProgram? = some steps) (h : .compare ∈ steps) :
    Ends (DataPath.compare w) d (fun _ _ => True) fun e _ => e.Tells w d := by
  unfold DataPath.compare
  cases hop : w.opcode <;> rw [hop] at hs <;> cases hs <;> simp at h ⊢
  grind [Fault.Tells, Word.NamesRegister, Opcode.signature]

end DataPath
end TickMachine
