import TickMachine.Isa.Stored
import TickMachine.Proofs.Json.Decoded
import TickMachine.Proofs.Json.RoundTrip

/-! Stored words are read back as what they were, whatever their opcodes and arguments. -/

namespace TickMachine

open Json

@[simp] theorem Opcode.ofJson?_toJson (op : Opcode) : Opcode.ofJson? op.toJson = some op :=
  ofExact?_mnemonic op

theorem isSimple_integers (vs : List Int64) :
    (Json.array (vs.map fun v => .ofInt v.toInt)).IsSimple :=
  .array (List.forall_mem_map.2 fun v _ => .ofInt v.toInt)

namespace Word

@[simp] theorem ofJson?_toJson (w : Word) : ofJson? w.toJson = some w := by
  have hfields : fields? fieldNames w.toJson = some [some (.ofInt w.index.toNat),
      some w.opcode.toJson, some (.array (w.args.map fun a => .ofInt a.toInt))] :=
    fields?_record rfl (by decide)
  rw [ofJson?, hfields, Option.bind_eq_bind, Option.bind_some]
  dsimp only
  rw [uint64?_ofInt, Opcode.ofJson?_toJson, list?_map int64?_ofInt]
  rfl

theorem isSimple_toJson (w : Word) : w.toJson.IsSimple := by
  refine isSimple_record ?_
  simp only [List.forall_mem_cons]
  exact ⟨.ofInt _, .ofText _, isSimple_integers _, nofun⟩

theorem isSimple_words (ws : List Word) : (Json.array (ws.map toJson)).IsSimple :=
  .array (List.forall_mem_map.2 fun w _ => w.isSimple_toJson)

end Word
end TickMachine
