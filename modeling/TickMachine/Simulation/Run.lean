import TickMachine.Assembly.Translate
import TickMachine.Machine.Load
import TickMachine.Simulation.Log

/-! Bounded runs: a machine is stepped until it halts, fails, runs out of input or has used up its
ticks. A run yields a report or a fault, and the events on the way. -/

namespace TickMachine.Simulation

structure Config where
  registers : Nat
  /-- No step begins at this tick or later. -/
  limit : UInt64
  /-- Steps that end before this tick are logged with a snapshot. -/
  debugLimit : UInt64

def Config.default : Config := ⟨4, 100000, 200⟩

inductive Stop
  | halted | endOfInput | tickLimit
  deriving DecidableEq

def Stop.name : Stop → String
  | .halted => "Halted"
  | .endOfInput => "EndOfInput"
  | .tickLimit => "TickLimit"

structure Report where
  output : List Int64
  /-- Steps begun, with a final halt or failed read among them. -/
  instructions : Nat
  ticks : UInt64
  stop : Stop
  /-- The clock reached the limit, whatever stopped the run. -/
  limitReached : Bool
  registers : List Int64
  deriving DecidableEq

def Report.text (r : Report) : String := DataPath.renderOutput r.output

inductive Fault
  | translation (fault : Assembly.Fault)
  | setup (fault : DataPath.Fault)
  | machine (tick counter : UInt64) (fault : Machine.Fault)
  /-- The ticks no longer fit the clock, which does not begin again at zero. -/
  | clockOverflow
  deriving DecidableEq

def Fault.message : Fault → String
  | .translation fault => "translation failed: " ++ fault.message
  | .setup fault => "machine setup failed: " ++ fault.message
  | .machine tick counter fault =>
    "CPU error at tick " ++ toString tick.toNat ++ ", PC=" ++ toString counter.toNat ++ ": " ++
      fault.message
  | .clockOverflow => "attempt to add with overflow"

structure Progress where
  machine : Machine
  instructions : Nat
  events : Array Event

abbrev Action := EStateM Machine.Fault Progress

def onMachine {α : Type} (cycle : Machine.Cycle α) : Action α
  | ⟨machine, instructions, events⟩ =>
    match cycle machine with
    | .ok a machine => .ok a ⟨machine, instructions, events⟩
    | .error fault machine => .error fault ⟨machine, instructions, events⟩

def log (events : List Event) : Action Unit :=
  modify fun p => { p with events := p.events ++ events }

/-- The signals that use a port log what they have taken from it or passed to it. -/
def microStep (w : Word) (s : MicroStep) : Action Unit := do
  let pending := (← get).machine.path.input
  onMachine (Machine.microStep w s)
  match s with
  | .latchRegister _ =>
    if w.readsInput then log (pending.head?.toList.map .consumed)
  | .write =>
    if w.writesOutput then log ((← get).machine.path.output.back?.toList.map .emitted)
  | _ => return

def execute (w : Word) : Action Machine.Outcome :=
  match w.opcode.microProgram? with
  | none => onMachine (Machine.execute w)
  | some steps => do
    steps.forM (microStep w)
    onMachine Machine.advance
    onMachine Machine.passTick
    return .executed w.opcode

def step : Action Machine.Outcome := do
  match (← get).machine.current? with
  | some w => execute w
  | none => onMachine Machine.step

inductive Ending
  | stopped (stop : Except Machine.Fault Stop)
  | clockOverflow

def clockEvent (debugLimit : UInt64) (m : Machine) : List Event :=
  if m.tick < debugLimit then [.stepped m.snapshot]
  else if m.tick = debugLimit then [.debugLimitReached]
  else []

@[noinline]
def Progress.afterStep (debugLimit tick : UInt64) :
    EStateM.Result Machine.Fault Progress Machine.Outcome → Progress × Option Ending
  | .ok (.executed _) ⟨m, instructions, events⟩ =>
    if m.tick < tick then (⟨m, instructions, events⟩, some .clockOverflow)
    else (⟨m, instructions, events ++ clockEvent debugLimit m⟩, none)
  | .ok .halted p => (p, some (.stopped (.ok .halted)))
  | .error fault ⟨m, instructions, events⟩ =>
    if m.tick < tick then (⟨m, instructions, events⟩, some .clockOverflow)
    else if fault.isEndOfInput then
      (⟨m, instructions, events.push .inputEmpty⟩, some (.stopped (.ok .endOfInput)))
    else (⟨m, instructions, events⟩, some (.stopped (.error fault)))

def Progress.next (debugLimit : UInt64) : Progress → Progress × Option Ending
  | ⟨machine, instructions, events⟩ =>
    Progress.afterStep debugLimit machine.tick (step ⟨machine, instructions + 1, events⟩)

/-- Steps as long as the clock is below the limit, at most `fuel` times. Every executed step passes
a tick, so as much fuel as the limit is enough. -/
def loop (config : Config) : Nat → Progress → Progress × Ending
  | 0, p => (p, .stopped (.ok .tickLimit))
  | fuel + 1, p =>
    if config.limit ≤ p.machine.tick then (p, .stopped (.ok .tickLimit))
    else
      match p.next config.debugLimit with
      | (p, none) => loop config fuel p
      | (p, some ending) => (p, ending)

def report (config : Config) (p : Progress) (stop : Stop) : Report where
  output := p.machine.path.output.toList
  instructions := p.instructions
  ticks := p.machine.tick
  stop
  limitReached := config.limit ≤ p.machine.tick
  registers := p.machine.path.registers.toList

def closingEvents (config : Config) (r : Report) : List Event :=
  (if r.limitReached then [.tickLimitExceeded config.limit] else []) ++ [.result r.text, .ended]

structure Result where
  events : List Event
  outcome : Except Fault Report

def simulate (image : Image) (input : List Char) (config : Config) : Result :=
  match Machine.load? image config.registers input with
  | .error fault => ⟨[], .error (.setup fault)⟩
  | .ok machine =>
    match loop config config.limit.toNat ⟨machine, 0, #[.started]⟩ with
    | (p, .clockOverflow) => ⟨p.events.toList, .error .clockOverflow⟩
    | (p, .stopped (.error fault)) =>
      ⟨p.events.toList, .error (.machine p.machine.tick p.machine.counter fault)⟩
    | (p, .stopped (.ok stop)) =>
      let r := report config p stop
      ⟨p.events.toList ++ closingEvents config r, .ok r⟩

def runSource (source input : List Char) (config : Config) : Except Fault Report :=
  match Assembly.translate source with
  | .error fault => .error (.translation fault)
  | .ok image => (simulate image (DataPath.terminated input) config).outcome

end TickMachine.Simulation
