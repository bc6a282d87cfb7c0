import TickMachine.Machine.Load

/-! The debugger: a machine of four registers that is stepped by hand or runs until a breakpoint, a
halt or a fault. Once stopped it stays as it is until a reset. -/

namespace TickMachine

/-- What the status line says, mostly of what the debugger did last. Any text can stand there. -/
structure Debugger.Status where
  message : String
  deriving DecidableEq

structure Debugger where
  machine : Machine
  image : Image
  input : List Char
  breakpoints : List UInt64
  running : Bool
  stopped : Bool
  status : Debugger.Status
  scroll : Nat

namespace Debugger

namespace Status

def ready : Status := ⟨"Ready. Press 's' to step, 'r' to run, 'q' to quit."⟩

def executed (counter : UInt64) (instruction : String) (tick : UInt64) : Status :=
  ⟨"PC=" ++ Text.zeroPadded 3 counter.toNat ++ ": " ++ instruction ++ "  (tick " ++
    toString tick.toNat ++ ")"⟩

def halted (tick : UInt64) : Status := ⟨"Halted after " ++ toString tick.toNat ++ " ticks"⟩

def inputExhausted (tick : UInt64) : Status := ⟨"Input exhausted at tick " ++ toString tick.toNat⟩

def failed (fault : Machine.Fault) : Status := ⟨"Error: " ++ fault.message⟩

def refused (tick : UInt64) : Status := ⟨"Machine stopped at tick " ++ toString tick.toNat⟩

def running : Status := ⟨"Running..."⟩

def paused : Status := ⟨"Paused."⟩

def reached (counter : UInt64) : Status := ⟨"Breakpoint at PC=" ++ toString counter.toNat⟩

def placed (counter : UInt64) : Status := ⟨"Set breakpoint at PC=" ++ toString counter.toNat⟩

def removed (counter : UInt64) : Status := ⟨"Removed breakpoint at PC=" ++ toString counter.toNat⟩

def reset : Status := ⟨"Reset. Ready."⟩

end Status

def registerCount : Nat := 4

def ofImage (image : Image) (input : List Char) : Debugger where
  machine := .load image registerCount input
  image
  input
  breakpoints := []
  running := false
  stopped := false
  status := .ready
  scroll := 0

def counter (d : Debugger) : UInt64 := d.machine.counter

def stopAt (d : Debugger) (machine : Machine) (status : Status) : Debugger :=
  { d with machine, status, stopped := true, running := false }

def step (d : Debugger) : Debugger :=
  if d.stopped then { d with running := false, status := .refused d.machine.tick }
  else
    let instruction := (d.machine.current?.map Word.assembly).getD ""
    match d.machine.step with
    | .ok (.executed _) m =>
      { d with machine := m, status := .executed d.counter instruction m.tick }
    | .ok .halted m => d.stopAt m (.halted m.tick)
    | .error fault m =>
      if fault.isEndOfInput then d.stopAt m (.inputExhausted m.tick) else d.stopAt m (.failed fault)

/-- Starts continuous running. An instruction with a breakpoint is executed at once, since running
would not get past it. -/
def run (d : Debugger) : Debugger :=
  let d := { d with running := true, status := .running }
  if d.counter ∈ d.breakpoints then d.step else d

def tick (d : Debugger) : Debugger :=
  if d.running then
    if d.counter ∈ d.breakpoints then { d with running := false, status := .reached d.counter }
    else d.step
  else d

def pause (d : Debugger) : Debugger := { d with running := false, status := .paused }

def insertAddress (address : UInt64) : List UInt64 → List UInt64
  | [] => [address]
  | other :: rest =>
    if address < other then address :: other :: rest else other :: insertAddress address rest

def placeBreakpoint (d : Debugger) (address : UInt64) : Debugger :=
  if address ∈ d.breakpoints then d
  else { d with breakpoints := insertAddress address d.breakpoints }

def toggleBreakpoint (d : Debugger) : Debugger :=
  if d.counter ∈ d.breakpoints then
    { d with breakpoints := d.breakpoints.erase d.counter, status := .removed d.counter }
  else { d.placeBreakpoint d.counter with status := .placed d.counter }

def reset (d : Debugger) : Debugger :=
  { d with
    machine := .load d.image registerCount d.input
    stopped := false
    running := false
    status := .reset }

def scrollTo (d : Debugger) (cell : Nat) : Debugger := { d with scroll := cell }

structure ListingRow where
  address : Nat
  instruction : String
  isCurrent : Bool
  deriving DecidableEq

/-- At most `lines` rows of the program, with the current instruction in the middle as far as the
rows above it reach. -/
def listing (d : Debugger) (lines : Nat) : List ListingRow :=
  let first := d.counter.toNat - lines / 2
  ((d.machine.program.toList.drop first).take lines).mapIdx fun i w =>
    ⟨first + i, w.assembly, decide (first + i = d.counter.toNat)⟩

end Debugger
end TickMachine
