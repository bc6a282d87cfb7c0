import TickMachine.DataPath.Basic

/-! The signals of the data path. Each is an action that may end in a fault; what it had changed by
then stays, which is at most the zero flag. -/

namespace TickMachine.DataPath

abbrev Action := EStateM Fault DataPath

def operand (w : Word) (position : Nat) : Action Int64 :=
  match w.arg? position with
  | some v => pure v
  | none => throw (.missingOperand w.index w.opcode position)

def readRegister (register : Int64) : Action Int64 := do
  let d ← get
  match fetch? d.registers register with
  | some v => return v
  | none => throw (.registerOutOfRange register d.registers.size)

def writeRegister (register value : Int64) : Action Unit := do
  let size := (← get).registers.size
  match place? register size with
  | some i => modify fun d => { d with registers := d.registers.setIfInBounds i value }
  | none => throw (.registerOutOfRange register size)

def readCell : Action Int64 := do
  let d ← get
  match fetch? d.cells d.address with
  | some cell => return cell.value
  | none => throw (.addressOutOfRange d.address d.cells.size)

def writeCell (value : Int64) : Action Unit := do
  let address := (← get).address
  let size := (← get).cells.size
  match place? address size with
  | some i => modify fun d => { d with cells := d.cells.modify i (·.setValue value) }
  | none => throw (.addressOutOfRange address size)

def alu (op : Operation) (left right : Int64) : Action Int64 := do
  match Alu.compute op left right with
  | .ok result =>
    modify fun d => { d with isZero := Alu.flagAfter d.isZero result }
    return result
  | .error cause => throw (.alu cause)

/-- Takes the next character of the input queue into a register. The register is checked first, so
that a bad one consumes nothing. -/
def takeInput (register : Int64) : Action Unit := do
  let size := (← get).registers.size
  match place? register size with
  | none => throw (.registerOutOfRange register size)
  | some i =>
    match (← get).input with
    | [] => throw .endOfInput
    | c :: rest =>
      modify fun d => { d with
        input := rest
        registers := d.registers.setIfInBounds i (Int64.ofNat c.toNat) }

def emit (value : Int64) : Action Unit :=
  modify fun d => { d with output := d.output.push value }

/-- Selects a data cell: a literal address, or the one in a register. An addition into memory
selects its source in the first phase and its destination in the second. -/
def latchAddress (w : Word) (phase : Phase) : Action Unit := do
  let address ← match w.opcode, phase with
    | .loadV, .first | .addMmr, .first => operand w 1
    | .loadR, .first | .next, .first => operand w 1 >>= readRegister
    | .storeV, .first | .addMmr, .second => operand w 0
    | .storeR, .first => operand w 0 >>= readRegister
    | .loadV, .second | .loadR, .second | .next, .second | .storeV, .second | .storeR, .second =>
      throw (.noPhase w.opcode .latchAddress phase)
    | _, _ => throw (.noRule w.opcode .latchAddress)
  modify fun d => { d with address }

def latchBuffer (w : Word) (phase : Phase) : Action Unit := do
  let buffer ← match w.opcode, phase with
    | .addMmr, .first => readCell
    | .modRrv, .first | .linear, .first | .linearCont, .first => operand w 1
    | .linearCont, .second => do
      let factor ← operand w 2 >>= readRegister
      alu .mul (← get).buffer factor
    | .addMmr, .second | .modRrv, .second | .linear, .second =>
      throw (.noPhase w.opcode .latchBuffer phase)
    | _, _ => throw (.noRule w.opcode .latchBuffer)
  modify fun d => { d with buffer }

def registerResult (w : Word) (phase : Phase) : Action (Int64 × Int64) :=
  match w.opcode, phase with
  | .mov, .first => do return (← operand w 0, ← operand w 1)
  | .loadV, .first | .loadR, .first | .next, .second => do return (← operand w 0, ← readCell)
  | .next, .first => increment 1
  | .inc, .first => increment 0
  | .modRrv, .first => do
    let dividend ← operand w 1 >>= readRegister
    let register ← operand w 0
    return (register, ← alu .mod dividend (← operand w 2))
  | .linear, .first => do
    let factor ← operand w 2 >>= readRegister
    let register ← operand w 0
    return (register, ← alu .mul (← get).buffer factor)
  | .linearCont, .first => do
    let register ← operand w 0
    let sum ← readRegister register
    return (register, ← alu .add (← get).buffer sum)
  | .mov, .second | .loadV, .second | .loadR, .second | .inc, .second | .modRrv, .second
  | .linear, .second | .linearCont, .second => throw (.noPhase w.opcode .latchRegister phase)
  | _, _ => throw (.noRule w.opcode .latchRegister)
where
  increment (position : Nat) : Action (Int64 × Int64) := do
    let register ← operand w position
    let current ← readRegister register
    return (register, ← alu .add current 1)

/-- Sets the destination register. A load from the input port takes a character in either phase and
does not look at the cells. -/
def latchRegister (w : Word) (phase : Phase) : Action Unit := do
  if w.readsInput then
    operand w 0 >>= takeInput
  else
    let (register, value) ← registerResult w phase
    writeRegister register value

def write (w : Word) : Action Unit := do
  if w.writesOutput then
    operand w 1 >>= readRegister >>= emit
  else
    match w.opcode with
    | .storeV | .storeR => operand w 1 >>= readRegister >>= writeCell
    | .addMmr => do
      let addend ← operand w 2 >>= readRegister
      alu .add (← get).buffer addend >>= writeCell
    | _ => throw (.noRule w.opcode .write)

def compare (w : Word) : Action Unit := do
  if w.opcode = .cmp then
    let left ← operand w 0 >>= readRegister
    let _ ← alu .cmp left (← operand w 1)
  else throw (.noRule w.opcode .compare)

end TickMachine.DataPath
