import TickMachine.Json.Writer
import TickMachine.Simulation.Run

/-! Reports as JSON. -/

namespace TickMachine.Simulation.Report

def toJson (r : Report) : Json :=
  .record [
    ("output", .ofText r.text),
    ("output_codes", .array (r.output.map fun code => .ofInt code.toInt)),
    ("instructions", .ofInt r.instructions),
    ("ticks", .ofInt r.ticks.toNat),
    ("stop", .ofText r.stop.name),
    ("limit_reached", .bool r.limitReached),
    ("registers", .array (r.registers.map fun v => .ofInt v.toInt))]

end TickMachine.Simulation.Report
