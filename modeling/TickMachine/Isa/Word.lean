import TickMachine.Isa.Opcode

/-! A word of program or data memory: its place in the image, its opcode and its arguments. The
payload of a data cell is its first argument. Two operand values name ports and not cells. -/

namespace TickMachine

structure Word where
  index : UInt64
  opcode : Opcode
  args : List Int64
  deriving DecidableEq, Inhabited

inductive Port
  | input | output
  deriving DecidableEq

inductive Location
  | port (port : Port)
  | cell (address : Int64)
  deriving DecidableEq

namespace Word

def arg? (w : Word) (position : Nat) : Option Int64 := w.args[position]?

def value (w : Word) : Int64 := w.args.headD 0

def setValue (w : Word) (value : Int64) : Word := { w with args := value :: w.args.tail }

/-- What a load from a literal address reads; address 0 is the input port. -/
def source? (w : Word) : Option Location :=
  if w.opcode = .loadV then
    (w.arg? 1).map fun a => if a = 0 then .port .input else .cell a
  else none

/-- What a store to a literal address writes; address 1 is the output port. -/
def target? (w : Word) : Option Location :=
  if w.opcode = .storeV then
    (w.arg? 0).map fun a => if a = 1 then .port .output else .cell a
  else none

def readsInput (w : Word) : Bool := w.source? == some (.port .input)

def writesOutput (w : Word) : Bool := w.target? == some (.port .output)

def display (w : Word) : String :=
  match w.args with
  | [] => w.opcode.mnemonic
  | args => w.opcode.mnemonic ++ " " ++ ", ".intercalate (args.map fun a => toString a.toInt)

/-- An operand as source text: a register by its name, counted from 1, if it has one, and all else
as a number. -/
def operandText (kind : OperandKind) (arg : Int64) : String :=
  if kind = .register ∧ 0 ≤ arg.toInt ∧ arg.toInt < Int64.maxValue.toInt then
    "r" ++ toString (arg.toInt + 1)
  else toString arg.toInt

def operandTexts : List OperandKind → List Int64 → List String
  | _, [] => []
  | [], arg :: args => operandText .value arg :: operandTexts [] args
  | kind :: kinds, arg :: args => operandText kind arg :: operandTexts kinds args

def assembly (w : Word) : String :=
  match operandTexts w.opcode.signature w.args with
  | [] => w.opcode.mnemonic
  | operands => w.opcode.mnemonic ++ " " ++ ", ".intercalate operands

end Word
end TickMachine
