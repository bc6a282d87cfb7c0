import TickMachine.Machine.Basic
import TickMachine.Text.Padding

/-! What a trace shows of a machine between two instructions. -/

namespace TickMachine

structure Snapshot where
  tick : UInt64
  counter : UInt64
  opcode : Option Opcode
  address : Int64
  buffer : Int64
  registers : Array Int64
  isZero : Bool
  deriving DecidableEq

def Machine.snapshot (m : Machine) : Snapshot where
  tick := m.tick
  counter := m.counter
  opcode := m.current?.map Word.opcode
  address := m.path.address
  buffer := m.path.buffer
  registers := m.path.registers
  isZero := m.path.isZero

namespace Snapshot

/-- The trace line; a dash stands for the opcode when the counter is outside the program. -/
def line (s : Snapshot) : String :=
  let counter := Text.padLeft 2 (toString s.counter.toNat)
  "TICK: " ++ Text.padLeft 4 (toString s.tick.toNat) ++
    " [" ++ counter ++ ": " ++ Text.padRight 7 ((s.opcode.map Opcode.display).getD "-") ++ "]" ++
    " PC: " ++ counter ++
    " DR: " ++ Text.padLeft 2 (toString s.address.toInt) ++
    " SB: " ++ Text.padLeft 2 (toString s.buffer.toInt) ++
    " RG: [" ++ ", ".intercalate (s.registers.toList.map fun v => toString v.toInt) ++ "]" ++
    " Z: " ++ (if s.isZero then "1" else "0")

end Snapshot
end TickMachine
