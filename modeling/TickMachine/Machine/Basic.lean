import TickMachine.DataPath.Signals

/-! The machine: a program, a program counter and a clock over a data path. One step carries out
one instruction. A failing step keeps the ticks and latches of the signals that came before the
fault. -/

namespace TickMachine

structure Machine where
  program : Array Word
  counter : UInt64
  path : DataPath
  tick : UInt64
  deriving DecidableEq

namespace Machine

inductive Fault
  | counterOutOfRange (counter : UInt64) (length : Nat)
  | notAnInstruction (opcode : Opcode) (index : UInt64)
  | badJumpTarget (index : UInt64) (target : Int64)
  | path (fault : DataPath.Fault)
  deriving DecidableEq

def Fault.message : Fault → String
  | .counterOutOfRange counter length =>
    "program counter " ++ toString counter.toNat ++ " outside program (" ++ toString length ++
      " instructions)"
  | .notAnInstruction opcode index =>
    "invalid opcode " ++ opcode.display ++ " at instruction " ++ toString index.toNat
  | .badJumpTarget index target =>
    "invalid jump target " ++ toString target.toInt ++ " at instruction " ++ toString index.toNat
  | .path fault => fault.message

def Fault.isEndOfInput (fault : Fault) : Bool := fault == .path .endOfInput

inductive Outcome
  | executed (opcode : Opcode)
  | halted
  deriving DecidableEq

def start (program : Array Word) (path : DataPath) : Machine := ⟨program, 0, path, 0⟩

def current? (m : Machine) : Option Word := m.program[m.counter.toNat]?

abbrev Cycle := EStateM Fault Machine

def signal {α : Type} (action : DataPath.Action α) : Cycle α
  | ⟨program, counter, path, tick⟩ =>
    match action path with
    | .ok a path => .ok a ⟨program, counter, path, tick⟩
    | .error fault path => .error (.path fault) ⟨program, counter, path, tick⟩

def passTick : Cycle Unit := modify fun m => { m with tick := m.tick + 1 }

def advance : Cycle Unit := modify fun m => { m with counter := m.counter + 1 }

def jump (target : UInt64) : Cycle Unit := modify fun m => { m with counter := target }

def branch (taken : Bool) (target : UInt64) : Cycle Unit := if taken then jump target else advance

/-- The first operand of a jump. It must not be negative, whether the jump is taken or not. -/
def jumpTarget (w : Word) : Cycle UInt64 := do
  let target ← signal (DataPath.operand w 0)
  if target.toInt < 0 then throw (.badJumpTarget w.index target)
  return UInt64.ofNat target.toInt.toNat

def microStep (w : Word) : MicroStep → Cycle Unit
  | .latchAddress phase => signal (DataPath.latchAddress w phase)
  | .latchBuffer phase => signal (DataPath.latchBuffer w phase)
  | .latchRegister phase => signal (DataPath.latchRegister w phase)
  | .write => signal (DataPath.write w)
  | .compare => signal (DataPath.compare w)
  | .tick => passTick

def execute (w : Word) : Cycle Outcome :=
  match w.opcode with
  | .hlt => return .halted
  | .jmp => do
    jump (← jumpTarget w)
    passTick
    return .executed w.opcode
  | .jz => do
    let target ← jumpTarget w
    branch (← get).path.isZero target
    passTick
    return .executed w.opcode
  | .jzR => do
    let target ← jumpTarget w
    let value ← signal (DataPath.operand w 1 >>= DataPath.readRegister)
    let _ ← signal (DataPath.alu .cmp value 0)
    passTick
    branch (← get).path.isZero target
    passTick
    return .executed w.opcode
  | _ =>
    match w.opcode.microProgram? with
    | none => throw (.notAnInstruction w.opcode w.index)
    | some steps => do
      steps.forM (microStep w)
      advance
      passTick
      return .executed w.opcode

def step : Cycle Outcome := do
  match (← get).current? with
  | some w => execute w
  | none =>
    let m ← get
    throw (.counterOutOfRange m.counter m.program.size)

end Machine
end TickMachine
