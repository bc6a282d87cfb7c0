import TickMachine.Debugger.Basic
import TickMachine.Screen.Panel
import TickMachine.Text.Wrap

/-! The debugger's screen: program, machine and status on the left, data memory, output and help on
the right. -/

namespace TickMachine.Debugger

open Screen

def programStyle (isCurrent hasBreakpoint : Bool) : Style :=
  if isCurrent then ⟨.yellow, true⟩
  else if hasBreakpoint then .colored .red
  else .plain

def programLine (d : Debugger) (row : ListingRow) : Line :=
  let hasBreakpoint := d.breakpoints.any fun address => address.toNat == row.address
  .uniform (programStyle row.isCurrent hasBreakpoint) <|
    (if hasBreakpoint then "●" else " ") ++ " " ++ (if row.isCurrent then "▶ " else "  ") ++
      Text.zeroPadded 3 row.address ++ ": " ++ row.instruction

def programPanel (d : Debugger) (rows : Nat) : Panel where
  title := " Program "
  border := .colored .cyan
  lines := (d.listing rows).map d.programLine
  below := .plain

def labelled (label : String) (color : Color) (value : String) : Row :=
  styled .plain label.toList ++ styled (.colored color) value.toList

def registersRow (path : DataPath) : Row :=
  styled .plain "RG: ".toList ++
    (path.registers.toList.mapIdx fun i v =>
      labelled ("r" ++ toString (i + 1) ++ "=") .white
        (Text.padRight 6 (toString v.toInt))).flatten

def latchesRow (m : Machine) : Row :=
  labelled "PC: " .yellow (Text.padRight 5 (toString m.counter.toNat)) ++
    labelled "DR: " .white (Text.padRight 5 (toString m.path.address.toInt)) ++
    labelled "SB: " .white (Text.padRight 5 (toString m.path.buffer.toInt)) ++
    if m.path.isZero then labelled "Z: " .green "1" else labelled "Z: " .gray "0"

def clockRow (d : Debugger) : Row :=
  labelled "Tick: " .cyan (toString d.machine.tick.toNat) ++
    labelled "   Input left: " .white (toString d.machine.path.input.length) ++
    if d.stopped then labelled "   State: " .red "Stopped" else labelled "   State: " .green "Ready"

def machinePanel (d : Debugger) : Panel where
  title := " Machine "
  border := .colored .green
  lines :=
    [registersRow d.machine.path, latchesRow d.machine, d.clockRow].map fun row => ⟨row, .plain⟩
  below := .plain

def statusPanel (d : Debugger) : Panel where
  title := " Status "
  border := .colored .white
  lines := [.uniform (.colored .white) d.status.message]
  below := .colored .white

def cellStyle (isSelected : Bool) (value : Int64) : Style :=
  if isSelected then ⟨.yellow, true⟩
  else if value ≠ 0 then .colored .white
  else .colored .darkGray

def cellLine (path : DataPath) (address : Nat) (cell : Word) : Line :=
  .uniform (cellStyle (path.address.toInt = address) cell.value) <|
    Text.zeroPadded 3 address ++ ": " ++ Text.padRight 7 cell.opcode.mnemonic ++ " " ++
      toString cell.value.toInt

def memoryPanel (d : Debugger) (rows : Nat) : Panel where
  title := " Data memory "
  border := .colored .magenta
  lines :=
    let cells := d.machine.path.cells.toList
    let first := min d.scroll cells.length
    ((cells.drop first).take rows).mapIdx fun i cell => cellLine d.machine.path (first + i) cell
  below := .plain

/-- The output as lines of at most `width` columns; an empty line stays. Characters without a column
count when a line is broken but are not shown. -/
def outputLines (output : List Char) (width : Nat) : List (List Char) :=
  (Text.dropReturns (Text.lines output)).flatMap fun line =>
    match Text.wrap width line with
    | [] => [[]]
    | parts => parts.map fun part => part.filter (Text.columns · ≠ 0)

def outputPanel (d : Debugger) (width : Nat) : Panel where
  title := " Output "
  border := .plain
  lines :=
    (outputLines (DataPath.renderOutput d.machine.path.output.toList).toList width).map fun text =>
      ⟨styled .plain text, .plain⟩
  below := .plain

def helpPanel : Panel where
  title := " Help "
  border := .colored .darkGray
  lines :=
    ["s: Step  r: Run  p: Pause  b: Breakpoint", "x: Reset  ↑↓: Scroll memory  q: Quit"].map
      (Line.uniform (.colored .darkGray))
  below := .colored .darkGray

def draw (d : Debugger) (width height : Nat) : List Row :=
  let left := width * 3 / 5
  let right := width - left
  beside
    ((d.programPanel (height - 12)).draw left (height - 10) ++ d.machinePanel.draw left 7 ++
      d.statusPanel.draw left 3)
    ((d.memoryPanel (height - 11)).draw right (height - 9) ++
      (d.outputPanel (right - 2)).draw right 5 ++ helpPanel.draw right 4)

end TickMachine.Debugger
