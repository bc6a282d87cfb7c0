import TickMachine.Isa.Word
import TickMachine.Json.Decode
import TickMachine.Json.Reader
import TickMachine.Json.Writer

/-! Words as JSON: a record of the index, the mnemonic and the arguments. -/

namespace TickMachine

def Opcode.toJson (op : Opcode) : Json := .ofText op.mnemonic

/-- An opcode is its mnemonic, or an object whose only member has that name and is `null`. -/
def Opcode.ofJson? : Json → Option Opcode
  | .string (some name) => ofExact? name
  | .object [(some name, .null)] => ofExact? name
  | _ => none

namespace Word

def fieldNames : List String := ["index", "opcode", "args"]

def toJson (w : Word) : Json :=
  .record [
    ("index", .ofInt w.index.toNat),
    ("opcode", w.opcode.toJson),
    ("args", .array (w.args.map fun a => .ofInt a.toInt))]

def ofJson? (v : Json) : Option Word := do
  match ← Json.fields? fieldNames v with
  | [some index, some opcode, args] =>
    return {
      index := ← index.uint64?
      opcode := ← Opcode.ofJson? opcode
      args := ← match args with
        | none => some []
        | some args => args.list? Json.int64? }
  | _ => none

def read? (text : List Char) : Option Word := Json.read? text >>= ofJson?

end Word
end TickMachine
