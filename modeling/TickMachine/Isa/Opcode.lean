/-! The instruction set: opcodes and data tags, their mnemonics and operand signatures, and the
micro-program of datapath signals that carries out each instruction. -/

namespace TickMachine

/-- What a word of memory is: an instruction, or (the last three) the tag of a data cell. -/
inductive Opcode
  | hlt | jmp | jz | jzR
  | mov | loadV | loadR | storeV | storeR | next
  | cmp | inc | addMmr | modRrv | linear | linearCont
  | number | string | buffer
  deriving DecidableEq, Inhabited

inductive OperandKind
  | register | value
  deriving DecidableEq

/-- The two halves of a latch that some instructions set twice. -/
inductive Phase
  | first | second
  deriving DecidableEq

inductive MicroStep
  | latchAddress (phase : Phase)
  | latchBuffer (phase : Phase)
  | latchRegister (phase : Phase)
  | write
  | compare
  | tick
  deriving DecidableEq

def Phase.name : Phase → String
  | .first => "First"
  | .second => "Second"

namespace Opcode

def all : List Opcode :=
  [.hlt, .jmp, .jz, .jzR, .mov, .loadV, .loadR, .storeV, .storeR, .next, .cmp, .inc, .addMmr,
    .modRrv, .linear, .linearCont, .number, .string, .buffer]

def mnemonic : Opcode → String
  | .hlt => "hlt"
  | .jmp => "jmp"
  | .jz => "jz"
  | .jzR => "jz_r"
  | .mov => "mov"
  | .loadV => "load_v"
  | .loadR => "load_r"
  | .storeV => "store_v"
  | .storeR => "store_r"
  | .next => "next"
  | .cmp => "cmp"
  | .inc => "inc"
  | .addMmr => "add_mmr"
  | .modRrv => "mod_rrv"
  | .linear => "linear"
  | .linearCont => "linear_cont"
  | .number => "number"
  | .string => "string"
  | .buffer => "buffer"

theorem mnemonic_injective {a b : Opcode} (h : a.mnemonic = b.mnemonic) : a = b := by
  revert h
  cases a <;> cases b <;> decide

def display (op : Opcode) : String := String.ofList (op.mnemonic.toList.map Char.toUpper)

def ofExact? (text : String) : Option Opcode := all.find? fun op => op.mnemonic == text

def ofMnemonic? (text : List Char) : Option Opcode :=
  ofExact? (String.ofList (text.map Char.toLower))

theorem ofExact?_mnemonic (op : Opcode) : ofExact? op.mnemonic = some op := by
  cases op <;> decide

def isData : Opcode → Bool
  | .number | .string | .buffer => true
  | _ => false

def isControlFlow : Opcode → Bool
  | .hlt | .jmp | .jz | .jzR => true
  | _ => false

def signature : Opcode → List OperandKind
  | .hlt => []
  | .jmp | .jz => [.value]
  | .jzR => [.value, .register]
  | .mov | .loadV | .cmp => [.register, .value]
  | .loadR | .storeR | .next => [.register, .register]
  | .storeV => [.value, .register]
  | .inc => [.register]
  | .addMmr => [.value, .value, .register]
  | .modRrv => [.register, .register, .value]
  | .linear | .linearCont => [.register, .value, .register]
  | .number | .string | .buffer => [.value]

/-- The signals of an instruction in order, with the ticks between them. One more tick ends the
instruction. Control flow and data tags have none. -/
def microProgram? : Opcode → Option (List MicroStep)
  | .mov | .inc => some [.latchRegister .first]
  | .loadV | .loadR => some [.latchAddress .first, .tick, .latchRegister .first]
  | .storeV | .storeR => some [.latchAddress .first, .tick, .write]
  | .next =>
    some [.latchRegister .first, .tick, .latchAddress .first, .tick, .latchRegister .second]
  | .cmp => some [.compare]
  | .addMmr =>
    some [.latchAddress .first, .tick, .latchBuffer .first, .tick, .latchAddress .second, .tick,
      .write]
  | .modRrv | .linear => some [.latchBuffer .first, .tick, .latchRegister .first]
  | .linearCont =>
    some [.latchBuffer .first, .tick, .latchBuffer .second, .tick, .latchRegister .first]
  | .hlt | .jmp | .jz | .jzR | .number | .string | .buffer => none

end Opcode
end TickMachine
