import TickMachine.DataPath.Signals
import TickMachine.Proofs.Alu
import TickMachine.Proofs.Ending

/-! The small actions that signals are made of: when each of them comes to its end and what it has
done to the data path by then, and which fault it ends in otherwise. -/

namespace TickMachine.DataPath

def register? (d : DataPath) (register : Int64) : Option Int64 := fetch? d.registers register

def cell? (d : DataPath) (address : Int64) : Option Int64 :=
  (fetch? d.cells address).map Word.value

def latchFlag (d : DataPath) (result : Int64) : DataPath :=
  { d with isZero := Alu.flagAfter d.isZero result }

def Assigns (register value : Int64) (d d' : DataPath) : Prop :=
  ∃ i, place? register d.registers.size = some i ∧
    { d with registers := d.registers.setIfInBounds i value } = d'

def Stores (value : Int64) (d d' : DataPath) : Prop :=
  ∃ i, place? d.address d.cells.size = some i ∧
    { d with cells := d.cells.modify i (·.setValue value) } = d'

section
variable {d d' : DataPath} {register value : Int64}

theorem Assigns.register? (h : Assigns register value d d') :
    d'.register? register = some value := by
  obtain ⟨i, hi, rfl⟩ := h
  have hlt := (place?_eq_some_iff.1 hi).2
  rw [DataPath.register?, fetch?_of_place? (i := i) (by simpa using hi)]
  simp [hlt]

theorem Assigns.register?_of_ne {other : Int64} (h : Assigns register value d d')
    (hne : other ≠ register) : d'.register? other = d.register? other := by
  obtain ⟨i, hi, rfl⟩ := h
  simp only [DataPath.register?, fetch?, Array.size_setIfInBounds]
  cases hj : place? other d.registers.size with
  | none => rfl
  | some j =>
    have hij : i ≠ j := by
      rintro rfl
      have hsame := (place?_eq_some_iff.1 hj).1.trans (place?_eq_some_iff.1 hi).1.symm
      exact hne (Int64.toInt_inj.1 hsame)
    exact Array.getElem?_setIfInBounds_ne hij

theorem Assigns.size (h : Assigns register value d d') :
    d'.registers.size = d.registers.size := by
  obtain ⟨i, -, rfl⟩ := h
  exact Array.size_setIfInBounds

theorem Assigns.cells (h : Assigns register value d d') : d'.cells = d.cells := by
  obtain ⟨i, -, rfl⟩ := h
  rfl

theorem Assigns.input (h : Assigns register value d d') : d'.input = d.input := by
  obtain ⟨i, -, rfl⟩ := h
  rfl

theorem Assigns.output (h : Assigns register value d d') : d'.output = d.output := by
  obtain ⟨i, -, rfl⟩ := h
  rfl

theorem Stores.registers (h : Stores value d d') : d'.registers = d.registers := by
  obtain ⟨i, -, rfl⟩ := h
  rfl

theorem Stores.input (h : Stores value d d') : d'.input = d.input := by
  obtain ⟨i, -, rfl⟩ := h
  rfl

theorem Stores.output (h : Stores value d d') : d'.output = d.output := by
  obtain ⟨i, -, rfl⟩ := h
  rfl

end

variable {w : Word} {d d' : DataPath} {register value left right result : Int64} {position : Nat}
  {op : Operation} {fault : Fault} {u : Unit}

theorem place?_eq_none_iff {n : Int64} {size : Nat} :
    place? n size = none ↔ n.toInt < 0 ∨ size ≤ n.toInt := by
  rw [place?]
  split <;> simp <;> omega

@[simp] theorem operand_eq_ok_iff :
    operand w position d = .ok value d' ↔ w.arg? position = some value ∧ d = d' := by
  rw [operand]
  cases w.arg? position <;> simp

@[simp] theorem operand_eq_error_iff :
    operand w position d = .error fault d' ↔
      w.arg? position = none ∧ .missingOperand w.index w.opcode position = fault ∧ d = d' := by
  rw [operand]
  cases w.arg? position <;> simp

@[simp] theorem readRegister_eq_ok_iff :
    readRegister register d = .ok value d' ↔ d.register? register = some value ∧ d = d' := by
  rw [readRegister, get_bind_apply, register?]
  cases fetch? d.registers register <;> simp

@[simp] theorem readRegister_eq_error_iff :
    readRegister register d = .error fault d' ↔
      place? register d.registers.size = none ∧
        .registerOutOfRange register d.registers.size = fault ∧ d = d' := by
  rw [readRegister, get_bind_apply, ← fetch?_eq_none_iff]
  cases fetch? d.registers register <;> simp

@[simp] theorem writeRegister_eq_ok_iff :
    writeRegister register value d = .ok u d' ↔ Assigns register value d d' := by
  rw [writeRegister, get_bind_apply, Assigns]
  cases place? register d.registers.size <;> simp

@[simp] theorem writeRegister_eq_error_iff :
    writeRegister register value d = .error fault d' ↔
      place? register d.registers.size = none ∧
        .registerOutOfRange register d.registers.size = fault ∧ d = d' := by
  rw [writeRegister, get_bind_apply]
  cases place? register d.registers.size <;> simp

@[simp] theorem readCell_eq_ok_iff :
    readCell d = .ok value d' ↔ d.cell? d.address = some value ∧ d = d' := by
  rw [readCell, get_bind_apply, cell?]
  cases fetch? d.cells d.address <;> simp

@[simp] theorem readCell_eq_error_iff :
    readCell d = .error fault d' ↔
      place? d.address d.cells.size = none ∧
        .addressOutOfRange d.address d.cells.size = fault ∧ d = d' := by
  rw [readCell, get_bind_apply, ← fetch?_eq_none_iff]
  cases fetch? d.cells d.address <;> simp

@[simp] theorem writeCell_eq_ok_iff : writeCell value d = .ok u d' ↔ Stores value d d' := by
  rw [writeCell, get_bind_apply, get_bind_apply, Stores]
  cases place? d.address d.cells.size <;> simp

@[simp] theorem writeCell_eq_error_iff :
    writeCell value d = .error fault d' ↔
      place? d.address d.cells.size = none ∧
        .addressOutOfRange d.address d.cells.size = fault ∧ d = d' := by
  rw [writeCell, get_bind_apply, get_bind_apply]
  cases place? d.address d.cells.size <;> simp

@[simp] theorem alu_eq_ok_iff :
    alu op left right d = .ok result d' ↔
      Alu.compute op left right = .ok result ∧ d.latchFlag result = d' := by
  rw [alu]
  cases Alu.compute op left right with
  | error cause => simp
  | ok v =>
    change EStateM.Result.ok v (d.latchFlag v) = .ok result d' ↔ _
    rw [EStateM.Result.ok.injEq, Except.ok.injEq]
    exact and_congr_right fun h => by rw [h]

@[simp] theorem alu_eq_error_iff :
    alu op left right d = .error fault d' ↔
      ∃ cause, Alu.compute op left right = .error cause ∧ .alu cause = fault ∧ d = d' := by
  rw [alu]
  cases Alu.compute op left right <;> simp

@[simp] theorem takeInput_eq_ok_iff :
    takeInput register d = .ok u d' ↔ ∃ c rest, d.input = c :: rest ∧
      Assigns register (Int64.ofNat c.toNat) { d with input := rest } d' := by
  rw [takeInput, get_bind_apply]
  simp only [Assigns]
  cases place? register d.registers.size <;> cases h : d.input <;> simp [h, and_assoc]

@[simp] theorem takeInput_eq_error_iff :
    takeInput register d = .error fault d' ↔ d = d' ∧
      (place? register d.registers.size = none ∧
          .registerOutOfRange register d.registers.size = fault ∨
        (∃ i, place? register d.registers.size = some i) ∧ d.input = [] ∧ .endOfInput = fault) := by
  rw [takeInput, get_bind_apply]
  cases place? register d.registers.size <;> cases h : d.input <;> simp [h, and_comm]

@[simp] theorem emit_apply :
    emit value d = .ok () { d with output := d.output.push value } := rfl

variable {Q : Int64 → DataPath → Prop} {R : Unit → DataPath → Prop} {E : Fault → DataPath → Prop}

@[simp] theorem ends_operand : Ends (operand w position) d Q E ↔
    (∀ v, w.arg? position = some v → Q v d) ∧
      (w.arg? position = none → E (.missingOperand w.index w.opcode position) d) := by
  simp [Ends]

@[simp] theorem ends_readRegister : Ends (readRegister register) d Q E ↔
    (∀ v, d.register? register = some v → Q v d) ∧
      (place? register d.registers.size = none →
        E (.registerOutOfRange register d.registers.size) d) := by
  simp [Ends]

@[simp] theorem ends_writeRegister : Ends (writeRegister register value) d R E ↔
    (∀ d', Assigns register value d d' → R () d') ∧
      (place? register d.registers.size = none →
        E (.registerOutOfRange register d.registers.size) d) := by
  simp [Ends]
  exact fun _ => ⟨fun h => h (), fun h _ => h⟩

@[simp] theorem ends_readCell : Ends readCell d Q E ↔
    (∀ v, d.cell? d.address = some v → Q v d) ∧
      (place? d.address d.cells.size = none →
        E (.addressOutOfRange d.address d.cells.size) d) := by
  simp [Ends]

@[simp] theorem ends_writeCell : Ends (writeCell value) d R E ↔
    (∀ d', Stores value d d' → R () d') ∧
      (place? d.address d.cells.size = none →
        E (.addressOutOfRange d.address d.cells.size) d) := by
  simp [Ends]
  exact fun _ => ⟨fun h => h (), fun h _ => h⟩

@[simp] theorem ends_alu : Ends (alu op left right) d Q E ↔
    (∀ v, Alu.compute op left right = .ok v → Q v (d.latchFlag v)) ∧
      ∀ c, Alu.compute op left right = .error c → E (.alu c) d := by
  simp only [Ends, alu_eq_ok_iff, alu_eq_error_iff]
  constructor
  · exact fun h => ⟨fun v hv => h.1 v _ ⟨hv, rfl⟩, fun c hc => h.2 _ d ⟨c, hc, rfl, rfl⟩⟩
  · intro hends
    rcases hends with ⟨hQ, hE⟩
    refine ⟨?_, ?_⟩
    · rintro v _ ⟨hv, rfl⟩
      exact hQ v hv
    · rintro _ _ ⟨c, hc, rfl, rfl⟩
      exact hE c hc

@[simp] theorem ends_takeInput : Ends (takeInput register) d R E ↔
    (∀ c rest d', d.input = c :: rest →
      Assigns register (Int64.ofNat c.toNat) { d with input := rest } d' → R () d') ∧
    (place? register d.registers.size = none →
      E (.registerOutOfRange register d.registers.size) d) ∧
    (∀ i, place? register d.registers.size = some i → d.input = [] → E .endOfInput d) := by
  simp only [Ends, takeInput_eq_ok_iff, takeInput_eq_error_iff]
  grind

@[simp] theorem ends_emit :
    Ends (emit value) d R E ↔ R () { d with output := d.output.push value } := ends_modify

end TickMachine.DataPath
