import TickMachine.Assembly.Fault
import TickMachine.Assembly.Statement
import TickMachine.Isa.Word

/-! The layout of a source: where its data cells and instructions come to lie, and so what its
variables and labels stand for. Data statements and code statements do not touch each other's
part. -/

namespace TickMachine.Assembly

abbrev Symbols := List (List Char × Int64)

structure DataLayout where
  cells : List Word
  names : Symbols

structure Draft where
  line : Nat
  opcode : Opcode
  operands : List Operand
  deriving DecidableEq

structure CodeLayout where
  drafts : List Draft
  labels : Symbols

structure Layout where
  data : DataLayout
  code : CodeLayout

/-- The value of the two cells at the addresses of the ports, which no load or store can reach by a
literal address. -/
def portValue : Int64 := 1234

def Layout.start : Layout where
  data := ⟨[⟨0, .number, [portValue]⟩, ⟨1, .number, [portValue]⟩], []⟩
  code := ⟨[], []⟩

def dataKind? (kind : List Char) : Option Opcode := (Opcode.ofMnemonic? kind).filter Opcode.isData

def integer (text : List Char) : Except Cause Int64 :=
  match Text.int64? text with
  | some n => .ok n
  | none => .error (.malformedData (.notInteger text))

/-- The values that a declaration puts into memory: a number, the characters between the quotes and
a terminating 0, or as many zeros as the size says. -/
def cellValues (kind : Opcode) (value : List Char) : Except Cause (List Int64) := do
  match kind with
  | .number => return [← integer value]
  | .string => return (Text.trimWhile (· == '"') value).map (fun c => Int64.ofNat c.toNat) ++ [0]
  | _ =>
    let size ← integer value
    if size.toInt < 0 then throw (.malformedData (.negativeSize size))
    return List.replicate size.toInt.toNat 0

def cellsFrom (address : Nat) (kind : Opcode) (values : List Int64) : List Word :=
  values.mapIdx fun i v => ⟨UInt64.ofNat (address + i), kind, [v]⟩

def DataLayout.declare (l : DataLayout) (text : List Char) : Except Cause DataLayout := do
  let some d := Declaration.read? text | throw (.malformedData .incomplete)
  let some kind := dataKind? d.kind | throw (.unknownDataKind d.kind)
  if (l.names.lookup d.name).isSome then throw (.duplicateSymbol d.name)
  let address := l.cells.length
  let values ← cellValues kind d.value
  return ⟨l.cells ++ cellsFrom address kind values, (d.name, Int64.ofNat address) :: l.names⟩

def instruction? (mnemonic : List Char) : Option Opcode :=
  (Opcode.ofMnemonic? mnemonic).filter (!·.isData)

def single (line : Nat) (opcode : Opcode) (operands : List Operand) : Except Cause (List Draft) :=
  if operands.length = opcode.signature.length then .ok [⟨line, opcode, operands⟩]
  else .error (.wrongArity opcode operands.length)

def furtherTerms (line : Nat) (register : Operand) : List Operand → List Draft
  | factor :: source :: rest =>
    ⟨line, .linearCont, [register, factor, source]⟩ :: furtherTerms line register rest
  | _ => []

def linearForm (line : Nat) : List Operand → Except Cause (List Draft)
  | register :: factor :: source :: rest =>
    if rest.length % 2 = 0 then
      .ok (⟨line, .linear, [register, factor, source]⟩ :: furtherTerms line register rest)
    else .error (.badLinearArity (rest.length + 3))
  | operands => .error (.badLinearArity operands.length)

def expand (line : Nat) (mnemonic : List Char) (operands : List Operand) :
    Except Cause (List Draft) :=
  let lower := mnemonic.map Char.toLower
  if lower = ['i', 'n', 'p', 'u', 't'] then single line .loadV (operands ++ [.value 0])
  else if lower = ['o', 'u', 't', 'p', 'u', 't'] then single line .storeV (.value 1 :: operands)
  else if lower = ['l', 'i', 'n', 'e', 'a', 'r'] then linearForm line operands
  else match instruction? mnemonic with
    | some opcode => single line opcode operands
    | none => .error (.unknownMnemonic mnemonic)

def CodeLayout.place (l : CodeLayout) (line : Nat) (text : List Char) :
    Except Cause CodeLayout := do
  match CodeLine.read text with
  | .label name =>
    if (l.labels.lookup name).isSome then throw (.duplicateSymbol name)
    return { l with labels := (name, Int64.ofNat l.drafts.length) :: l.labels }
  | .instruction mnemonic operands =>
    return { l with drafts := l.drafts ++ (← expand line mnemonic operands) }

def Layout.place (l : Layout) (s : Statement) : Except Fault Layout :=
  Except.mapError (Fault.mk s.line) <|
    match s.place with
    | some .data => return { l with data := ← l.data.declare s.text }
    | some .code => return { l with code := ← l.code.place s.line s.text }
    | none => .error .noSection

def layout (statements : List Statement) : Except Fault Layout :=
  statements.foldlM Layout.place Layout.start

end TickMachine.Assembly
