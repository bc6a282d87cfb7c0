import TickMachine.Isa.Stored
import TickMachine.Machine.Snapshot

/-! Whole machines and snapshots as JSON. A saved machine holds everything that later steps can
depend on, so a restored one goes on as the saved one would have. -/

namespace TickMachine

namespace DataPath

def flagFieldNames : List String := ["is_zero"]

def fieldNames : List String :=
  ["data_memory", "registers", "data_address", "buffer_register", "alu", "input_buffer",
    "output_buffer"]

def toJson (d : DataPath) : Json :=
  .record [
    ("data_memory", .array (d.cells.toList.map Word.toJson)),
    ("registers", .array (d.registers.toList.map fun v => .ofInt v.toInt)),
    ("data_address", .ofInt d.address.toInt),
    ("buffer_register", .ofInt d.buffer.toInt),
    ("alu", .record [("is_zero", .bool d.isZero)]),
    ("input_buffer", .array (d.input.map fun c => .ofText (String.singleton c))),
    ("output_buffer", .array (d.output.toList.map fun v => .ofInt v.toInt))]

def flagOfJson? (v : Json) : Option Bool := do
  match ← Json.fields? flagFieldNames v with
  | [some flag] => flag.bool?
  | _ => none

def ofJson? (v : Json) : Option DataPath := do
  match ← Json.fields? fieldNames v with
  | [some cells, some registers, some address, some buffer, some alu, some input, some output] =>
    return {
      cells := (← cells.list? Word.ofJson?).toArray
      registers := (← registers.list? Json.int64?).toArray
      address := ← address.int64?
      buffer := ← buffer.int64?
      isZero := ← flagOfJson? alu
      input := ← input.list? Json.char?
      output := (← output.list? Json.int64?).toArray }
  | _ => none

end DataPath

namespace Machine

def fieldNames : List String := ["program_memory", "program_counter", "data_path", "tick"]

def toJson (m : Machine) : Json :=
  .record [
    ("program_memory", .array (m.program.toList.map Word.toJson)),
    ("program_counter", .ofInt m.counter.toNat),
    ("data_path", m.path.toJson),
    ("tick", .ofInt m.tick.toNat)]

def ofJson? (v : Json) : Option Machine := do
  match ← Json.fields? fieldNames v with
  | [some program, some counter, some path, some tick] =>
    return {
      program := (← program.list? Word.ofJson?).toArray
      counter := ← counter.uint64?
      path := ← DataPath.ofJson? path
      tick := ← tick.uint64? }
  | _ => none

def save (m : Machine) : String := m.toJson.render

def restore? (text : String) : Option Machine := Json.read? text.toList >>= ofJson?

end Machine

namespace Snapshot

def fieldNames : List String :=
  ["tick", "program_counter", "opcode", "data_address", "buffer_register", "registers", "is_zero"]

def toJson (s : Snapshot) : Json :=
  .record [
    ("tick", .ofInt s.tick.toNat),
    ("program_counter", .ofInt s.counter.toNat),
    ("opcode", match s.opcode with
      | none => .null
      | some op => op.toJson),
    ("data_address", .ofInt s.address.toInt),
    ("buffer_register", .ofInt s.buffer.toInt),
    ("registers", .array (s.registers.toList.map fun v => .ofInt v.toInt)),
    ("is_zero", .bool s.isZero)]

def opcodeOfJson? : Option Json → Option (Option Opcode)
  | none | some .null => some none
  | some v => (Opcode.ofJson? v).map some

def ofJson? (v : Json) : Option Snapshot := do
  match ← Json.fields? fieldNames v with
  | [some tick, some counter, opcode, some address, some buffer, some registers, some isZero] =>
    return {
      tick := ← tick.uint64?
      counter := ← counter.uint64?
      opcode := ← opcodeOfJson? opcode
      address := ← address.int64?
      buffer := ← buffer.int64?
      registers := (← registers.list? Json.int64?).toArray
      isZero := ← isZero.bool? }
  | _ => none

def save (s : Snapshot) : String := s.toJson.render

def restore? (text : String) : Option Snapshot := Json.read? text.toList >>= ofJson?

end Snapshot
end TickMachine
