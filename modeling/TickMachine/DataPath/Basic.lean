import TickMachine.Alu
import TickMachine.Isa.Word

/-! The data path: registers, data cells, the two latches, the zero flag and the two ports, with the
faults a signal can end in. -/

namespace TickMachine

structure DataPath where
  cells : Array Word
  registers : Array Int64
  /-- The latch that selects the data cell to read or write. -/
  address : Int64
  /-- The latch that holds the left operand of two-step arithmetic. -/
  buffer : Int64
  isZero : Bool
  input : List Char
  output : Array Int64
  deriving DecidableEq

namespace DataPath

inductive Signal
  | latchAddress | latchBuffer | latchRegister | write | compare
  deriving DecidableEq

def Signal.name : Signal → String
  | .latchAddress => "latch_data_address"
  | .latchBuffer => "latch_buffer_register"
  | .latchRegister => "latch_register"
  | .write => "signal_write"
  | .compare => "signal_compare"

inductive Fault
  | noRegisters
  | noRule (opcode : Opcode) (signal : Signal)
  | noPhase (opcode : Opcode) (signal : Signal) (phase : Phase)
  | missingOperand (index : UInt64) (opcode : Opcode) (position : Nat)
  | registerOutOfRange (register : Int64) (count : Nat)
  | addressOutOfRange (address : Int64) (size : Nat)
  | endOfInput
  | alu (cause : Alu.Fault)
  deriving DecidableEq

def Fault.message : Fault → String
  | .noRegisters => "register count must be positive"
  | .noRule opcode signal => opcode.display ++ " has no " ++ signal.name ++ " rule"
  | .noPhase opcode signal phase =>
    opcode.display ++ " has no " ++ phase.name ++ " step for " ++ signal.name
  | .missingOperand index opcode position =>
    "instruction " ++ toString index.toNat ++ " (" ++ opcode.display ++ ") is missing operand " ++
      toString position
  | .registerOutOfRange register count =>
    "register " ++ toString register.toInt ++ " out of range (" ++ toString count ++ " registers)"
  | .addressOutOfRange address size =>
    "data address " ++ toString address.toInt ++ " out of range (" ++ toString size ++ " cells)"
  | .endOfInput => "end of input"
  | .alu cause => "ALU error: " ++ cause.message

def start (cells : Array Word) (registers : Nat) (input : List Char) : DataPath where
  cells
  registers := Array.replicate registers 0
  address := 0
  buffer := 0
  isZero := false
  input
  output := #[]

def start? (cells : Array Word) (registers : Nat) (input : List Char) : Except Fault DataPath :=
  if registers = 0 then .error .noRegisters else .ok (start cells registers input)

def place? (n : Int64) (size : Nat) : Option Nat :=
  if 0 ≤ n.toInt ∧ n.toInt < size then some n.toInt.toNat else none

theorem place?_eq_some_iff {n : Int64} {size i : Nat} :
    place? n size = some i ↔ n.toInt = i ∧ i < size := by
  rw [place?]
  split
  · rw [Option.some.injEq]
    omega
  · simp only [reduceCtorEq, false_iff]
    omega

def fetch? {α : Type} (store : Array α) (n : Int64) : Option α :=
  (place? n store.size).bind (store[·]?)

theorem fetch?_of_place? {α : Type} {store : Array α} {n : Int64} {i : Nat}
    (h : place? n store.size = some i) : fetch? store n = store[i]? := by
  rw [fetch?, h, Option.bind_some]

theorem fetch?_eq_none_iff {α : Type} {store : Array α} {n : Int64} :
    fetch? store n = none ↔ place? n store.size = none := by
  cases h : place? n store.size with
  | none => simp [fetch?, h]
  | some i => simp [fetch?_of_place? h, (place?_eq_some_iff.1 h).2]

/-- Output codes as text: a code below 256 is that character, any other its decimal numeral. -/
def renderCode (code : Int64) : String :=
  if 0 ≤ code.toInt ∧ code.toInt < 256 then String.singleton (Char.ofNat code.toInt.toNat)
  else toString code.toInt

def renderOutput (codes : List Int64) : String := String.join (codes.map renderCode)

/-- The input queue for a text: its characters and then the terminator U+0000. -/
def terminated (text : List Char) : List Char := text ++ ['\x00']

end DataPath
end TickMachine
