import TickMachine.Machine.Stored
import TickMachine.Proofs.Isa.Stored

/-! Saved machines and snapshots. Restoring undoes saving for every value, reached by a run or not,
so a machine that is saved and restored between two calls answers every later call alike. -/

namespace TickMachine

open Json

namespace DataPath

theorem isSimple_toJson (d : DataPath) : d.toJson.IsSimple := by
  have hcells := Word.isSimple_words d.cells.toList
  have hregisters := isSimple_integers d.registers.toList
  have houtput := isSimple_integers d.output.toList
  have hinput : (Json.array (d.input.map fun c => .ofText (String.singleton c))).IsSimple :=
    .array (List.forall_mem_map.2 fun c _ => .ofText (String.singleton c))
  have hflag : (Json.record [("is_zero", .bool d.isZero)]).IsSimple :=
    isSimple_record (List.forall_mem_singleton.2 (.bool d.isZero))
  refine isSimple_record ?_
  simp only [List.forall_mem_cons]
  exact ⟨hcells, hregisters, .ofInt _, .ofInt _, hflag, hinput, houtput, nofun⟩

theorem flagOfJson?_record (b : Bool) :
    flagOfJson? (.record [("is_zero", .bool b)]) = some b := by
  have hfields : fields? flagFieldNames (.record [("is_zero", .bool b)]) = some [some (.bool b)] :=
    fields?_record rfl (by decide)
  rw [flagOfJson?, hfields, Option.bind_eq_bind, Option.bind_some]
  rfl

@[simp] theorem ofJson?_toJson (d : DataPath) : ofJson? d.toJson = some d := by
  have hfields : fields? fieldNames d.toJson = some [
      some (.array (d.cells.toList.map Word.toJson)),
      some (.array (d.registers.toList.map fun v => .ofInt v.toInt)),
      some (.ofInt d.address.toInt),
      some (.ofInt d.buffer.toInt),
      some (.record [("is_zero", .bool d.isZero)]),
      some (.array (d.input.map fun c => .ofText (String.singleton c))),
      some (.array (d.output.toList.map fun v => .ofInt v.toInt))] :=
    fields?_record rfl (by decide)
  rw [ofJson?, hfields, Option.bind_eq_bind, Option.bind_some]
  dsimp only
  rw [list?_map Word.ofJson?_toJson, list?_map int64?_ofInt, int64?_ofInt, int64?_ofInt,
    flagOfJson?_record, list?_map char?_singleton, list?_map int64?_ofInt]
  rfl

end DataPath

namespace Snapshot

def opcodeToJson : Option Opcode → Json
  | none => .null
  | some op => op.toJson

theorem isSimple_opcodeToJson (opcode : Option Opcode) : (opcodeToJson opcode).IsSimple := by
  cases opcode with
  | none => exact .null
  | some op => exact .ofText op.mnemonic

@[simp] theorem opcodeOfJson?_opcodeToJson (opcode : Option Opcode) :
    opcodeOfJson? (some (opcodeToJson opcode)) = some opcode := by
  cases opcode with
  | none => rfl
  | some op => exact congrArg (Option.map some) (Opcode.ofJson?_toJson op)

theorem isSimple_toJson (s : Snapshot) : s.toJson.IsSimple := by
  have hopcode := isSimple_opcodeToJson s.opcode
  refine isSimple_record ?_
  simp only [List.forall_mem_cons]
  exact ⟨.ofInt _, .ofInt _, hopcode, .ofInt _, .ofInt _, isSimple_integers _, .bool _, nofun⟩

@[simp] theorem ofJson?_toJson (s : Snapshot) : ofJson? s.toJson = some s := by
  have hfields : fields? fieldNames s.toJson = some [
      some (.ofInt s.tick.toNat),
      some (.ofInt s.counter.toNat),
      some (opcodeToJson s.opcode),
      some (.ofInt s.address.toInt),
      some (.ofInt s.buffer.toInt),
      some (.array (s.registers.toList.map fun v => .ofInt v.toInt)),
      some (.bool s.isZero)] :=
    fields?_record rfl (by decide)
  rw [ofJson?, hfields, Option.bind_eq_bind, Option.bind_some]
  dsimp only
  rw [uint64?_ofInt, uint64?_ofInt, opcodeOfJson?_opcodeToJson, int64?_ofInt, int64?_ofInt,
    list?_map int64?_ofInt, bool?_bool]
  rfl

theorem restore?_save (s : Snapshot) : restore? s.save = some s := by
  rw [restore?, save, read?_render s.isSimple_toJson, Option.bind_eq_bind, Option.bind_some,
    ofJson?_toJson]

end Snapshot

namespace Machine

theorem isSimple_toJson (m : Machine) : m.toJson.IsSimple := by
  refine isSimple_record ?_
  simp only [List.forall_mem_cons]
  exact ⟨Word.isSimple_words _, .ofInt _, m.path.isSimple_toJson, .ofInt _, nofun⟩

@[simp] theorem ofJson?_toJson (m : Machine) : ofJson? m.toJson = some m := by
  have hfields : fields? fieldNames m.toJson = some [
      some (.array (m.program.toList.map Word.toJson)),
      some (.ofInt m.counter.toNat),
      some m.path.toJson,
      some (.ofInt m.tick.toNat)] :=
    fields?_record rfl (by decide)
  rw [ofJson?, hfields, Option.bind_eq_bind, Option.bind_some]
  dsimp only
  rw [list?_map Word.ofJson?_toJson, uint64?_ofInt, DataPath.ofJson?_toJson, uint64?_ofInt]
  rfl

theorem restore?_save (m : Machine) : restore? m.save = some m := by
  rw [restore?, save, read?_render m.isSimple_toJson, Option.bind_eq_bind, Option.bind_some,
    ofJson?_toJson]

/-! ### Calls with reloads between them -/

inductive Call
  | step
  | microStep (w : Word) (s : MicroStep)
  | readRegister (register : Int64)
  | writeRegister (register value : Int64)
  | alu (op : Operation) (left right : Int64)
  | advance
  | jump (target : UInt64)

inductive Reply
  | done
  | outcome (outcome : Outcome)
  | value (value : Int64)
  deriving DecidableEq

def Call.perform : Call → Cycle Reply
  | .step => .outcome <$> Machine.step
  | .microStep w s => do
    Machine.microStep w s
    return .done
  | .readRegister register => .value <$> signal (DataPath.readRegister register)
  | .writeRegister register value => do
    signal (DataPath.writeRegister register value)
    return .done
  | .alu op left right => .value <$> signal (DataPath.alu op left right)
  | .advance => do
    Machine.advance
    return .done
  | .jump target => do
    Machine.jump target
    return .done

structure Answer where
  reply : Except Fault Reply
  snapshot : Snapshot
  output : Array Int64

def answer (m : Machine) (call : Call) : Answer × Machine :=
  match call.perform m with
  | .ok reply m => (⟨.ok reply, m.snapshot, m.path.output⟩, m)
  | .error fault m => (⟨.error fault, m.snapshot, m.path.output⟩, m)

def answers (m : Machine) : List Call → List Answer × Machine
  | [] => ([], m)
  | call :: calls =>
    let (first, m) := m.answer call
    let (others, m) := m.answers calls
    (first :: others, m)

/-- A call, or to save the machine and go on with what is restored from the text. -/
inductive Request
  | call (call : Call)
  | reload

def Request.call? : Request → Option Call
  | .call c => some c
  | .reload => none

/-- As `answers`, with reloads; there are no answers if one of the texts cannot be restored. -/
def serve (m : Machine) : List Request → Option (List Answer × Machine)
  | [] => some ([], m)
  | .reload :: requests => do
    let m ← restore? m.save
    m.serve requests
  | .call call :: requests => do
    let (first, m) := m.answer call
    let (others, m) ← m.serve requests
    return (first :: others, m)

theorem serve_reload (m : Machine) (requests : List Request) :
    m.serve (.reload :: requests) = m.serve requests := by
  rw [serve, restore?_save, Option.bind_eq_bind, Option.bind_some]

theorem serve_eq (m : Machine) (requests : List Request) :
    m.serve requests = some (m.answers (requests.filterMap Request.call?)) := by
  induction requests generalizing m with
  | nil => rfl
  | cons request requests ih =>
    cases request with
    | reload => rw [serve_reload, ih, List.filterMap_cons_none rfl]
    | call call =>
      have hcalls : (Request.call call :: requests).filterMap Request.call? =
          call :: requests.filterMap Request.call? := rfl
      rw [serve, hcalls, answers]
      dsimp only
      rw [ih]
      rfl

/-- Restoring undoes saving for every machine and every snapshot, so that reloads anywhere among the
calls change no answer and not the machine in the end. -/
theorem save_lossless (m : Machine) :
    restore? m.save = some m ∧ (∀ s : Snapshot, Snapshot.restore? s.save = some s) ∧
      ∀ requests : List Request,
        m.serve requests = some (m.answers (requests.filterMap Request.call?)) :=
  ⟨restore?_save m, Snapshot.restore?_save, serve_eq m⟩

end Machine
end TickMachine
