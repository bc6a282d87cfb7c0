import TickMachine.Isa.Word
import TickMachine.Text.Padding

/-! Program images: a data segment of cells and a code segment of instructions, the check that every
word sits in the segment of its tag, and the listing of an image as text. -/

namespace TickMachine

structure Image where
  data : List Word
  code : List Word
  deriving DecidableEq, Inhabited

namespace Image

inductive Segment
  | data | code
  deriving DecidableEq

def Segment.name : Segment → String
  | .data => "data"
  | .code => "code"

inductive HeaderFault
  | empty
  | notLength
  | tooLong (length : UInt64) (words : Nat)
  deriving DecidableEq

def HeaderFault.message : HeaderFault → String
  | .empty => "empty image"
  | .notLength => "first element must be the data length"
  | .tooLong length words =>
    "data length " ++ toString length.toNat ++ " exceeds " ++ toString words ++ " entries"

inductive Fault
  | malformed
  | badHeader (cause : HeaderFault)
  | unexpectedInteger (position : Nat)
  | misplaced (segment : Segment) (index : UInt64) (opcode : Opcode)
  | emptyCell (index : UInt64)
  deriving DecidableEq

def Fault.message : Fault → String
  | .malformed => "malformed JSON"
  | .badHeader cause => "bad image header: " ++ cause.message
  | .unexpectedInteger position => "unexpected bare integer at element " ++ toString position
  | .misplaced segment index opcode =>
    opcode.display ++ " at index " ++ toString index.toNat ++ " does not belong in the " ++
      segment.name ++ " segment"
  | .emptyCell index => "data cell " ++ toString index.toNat ++ " has no value"

def entryCount (image : Image) : Nat := 1 + image.data.length + image.code.length

def checkData (w : Word) : Except Fault Unit :=
  if !w.opcode.isData then .error (.misplaced .data w.index w.opcode)
  else if w.args = [] then .error (.emptyCell w.index)
  else .ok ()

def checkCode (w : Word) : Except Fault Unit :=
  if w.opcode.isData then .error (.misplaced .code w.index w.opcode) else .ok ()

def check (image : Image) : Except Fault Unit := do
  image.data.forM checkData
  image.code.forM checkCode

def cellRemark (value : Int64) : String :=
  if 0x20 ≤ value.toInt ∧ value.toInt < 0x7F then
    "  ; '" ++ String.singleton (Char.ofNat value.toInt.toNat) ++ "'"
  else ""

def cellLine (address : Nat) (cell : Word) : String :=
  Text.zeroPadded 3 address ++ ": " ++ cell.opcode.mnemonic ++ " " ++ toString cell.value.toInt ++
    cellRemark cell.value ++ "\n"

def codeLine (address : Nat) (w : Word) : String :=
  Text.zeroPadded 3 address ++ ": " ++ w.assembly ++ "\n"

def listing (image : Image) : String :=
  "; data segment (" ++ toString image.data.length ++ " cells)\n" ++
    String.join (image.data.mapIdx cellLine) ++
    "\n; code segment (" ++ toString image.code.length ++ " instructions)\n" ++
    String.join (image.code.mapIdx codeLine)

end Image
end TickMachine
