import TickMachine.Assembly.Translate
import TickMachine.Image.Stored
import TickMachine.Machine.Load
import TickMachine.Machine.Stored
import TickMachine.Numeric.Binary64

/-! A session: one machine of four registers behind an interface for a host program. A load that
fails changes nothing; after a halt or a fault nothing runs until the next load or reset. -/

namespace TickMachine

structure Session where
  machine : Option Machine
  image : Image
  input : List Char
  halted : Bool
  deriving DecidableEq

namespace Session

inductive Fault
  | assembly (fault : Assembly.Fault)
  | image (fault : Image.Fault)
  | machine (fault : Machine.Fault)
  | halted
  | notLoaded
  deriving DecidableEq

def Fault.message : Fault → String
  | .assembly fault => fault.message
  | .image fault => fault.message
  | .machine fault => fault.message
  | .halted => "machine is halted"
  | .notLoaded => "no program loaded"

def registerCount : Nat := 4

def empty : Session := ⟨none, ⟨[], []⟩, [], false⟩

/-- The machine right after the last load; without one, a machine with an empty program. -/
def reset (s : Session) : Session :=
  { s with machine := some (.load s.image registerCount s.input), halted := false }

def load (s : Session) (image : Image) (text : List Char) : Session :=
  { s with image, input := DataPath.terminated text }.reset

def loadSource (s : Session) (source text : List Char) : Except Fault (Nat × Session) :=
  match Assembly.translate source with
  | .ok image => .ok (image.code.length, s.load image text)
  | .error fault => .error (.assembly fault)

def loadImage (s : Session) (stored text : List Char) : Except Fault (Nat × Session) :=
  match Image.read stored with
  | .ok image => .ok (image.code.length, s.load image text)
  | .error fault => .error (.image fault)

def step (s : Session) : Except Fault String × Session :=
  if s.halted then (.error .halted, s)
  else match s.machine with
    | none => (.error .notLoaded, s)
    | some m =>
      let text := (m.current?.map Word.assembly).getD ""
      match m.step with
      | .ok (.executed _) m => (.ok text, { s with machine := some m })
      | .ok .halted m => (.ok text, { s with machine := some m, halted := true })
      | .error fault m => (.error (.machine fault), { s with machine := some m, halted := true })

def runMachine (maxTicks : UInt64) : Nat → Machine → Machine × Bool
  | 0, m => (m, false)
  | fuel + 1, m =>
    if maxTicks ≤ m.tick then (m, false)
    else match m.step with
      | .ok (.executed _) m => runMachine maxTicks fuel m
      | .ok .halted m => (m, true)
      | .error _ m => (m, true)

def tick (s : Session) : UInt64 := (s.machine.map Machine.tick).getD 0

/-- Runs until the machine ends or the clock reaches `maxTicks`. Every executed step passes a
tick. -/
def run (s : Session) (maxTicks : UInt32) : Session :=
  if s.halted then s
  else match s.machine with
    | none => s
    | some m =>
      let (m, halted) := runMachine maxTicks.toUInt64 maxTicks.toNat m
      { s with machine := some m, halted }

def counter (s : Session) : UInt64 := (s.machine.map Machine.counter).getD 0

def isZero (s : Session) : Bool := (s.machine.map fun m => m.path.isZero).getD false

def registers (s : Session) : List Int64 := (s.machine.map fun m => m.path.registers.toList).getD []

/-- The registers as a host with double precision numbers sees them. -/
def hostRegisters (s : Session) : List Int := s.registers.map fun v => Numeric.nearestInt v.toInt

def cells (s : Session) : Array Word := (s.machine.map fun m => m.path.cells).getD #[]

def valueAt (s : Session) (address : Nat) : Int64 := ((s.cells[address]?).map Word.value).getD 0

def output (s : Session) : String :=
  DataPath.renderOutput ((s.machine.map fun m => m.path.output.toList).getD [])

def snapshot (s : Session) : Except Fault String :=
  match s.machine with
  | some m => .ok m.snapshot.save
  | none => .error .notLoaded

def translateSource (source : List Char) : Except Fault String :=
  match Assembly.translate source with
  | .ok image => .ok image.render
  | .error fault => .error (.assembly fault)

def listImage (stored : List Char) : Except Fault String :=
  match Image.read stored with
  | .ok image => .ok image.listing
  | .error fault => .error (.image fault)

end Session
end TickMachine
