import TickMachine.Machine.Snapshot

/-! The log of a run: what happened, in order, and the lines that tell it. An output line repeats
all output so far, so the lines are found by going through the events. -/

namespace TickMachine.Simulation

inductive Event
  | started
  | consumed (c : Char)
  | emitted (code : Int64)
  | stepped (after : Snapshot)
  | debugLimitReached
  | inputEmpty
  | tickLimitExceeded (limit : UInt64)
  | result (output : String)
  | ended
  deriving DecidableEq

inductive Level
  | debug | info | warn
  deriving DecidableEq

def Level.name : Level → String
  | .debug => "DEBUG"
  | .info => "INFO"
  | .warn => "WARN"

structure LogLine where
  level : Level
  message : String
  deriving DecidableEq

def Event.line (written : String) : Event → LogLine
  | .started => ⟨.info, "start simulation"⟩
  | .consumed c => ⟨.debug, "input: " ++ if c = '\x00' then "<end>" else String.singleton c⟩
  | .emitted code => ⟨.debug, "output: " ++ written ++ " << " ++ toString code.toInt⟩
  | .stepped after => ⟨.debug, after.line⟩
  | .debugLimitReached => ⟨.warn, "debug limit reached"⟩
  | .inputEmpty => ⟨.warn, "input buffer is empty"⟩
  | .tickLimitExceeded limit => ⟨.warn, "tick limit of " ++ toString limit.toNat ++ " exceeded"⟩
  | .result output => ⟨.info, "output: " ++ output⟩
  | .ended => ⟨.info, "end simulation"⟩

def Event.written : Event → String
  | .emitted code => DataPath.renderCode code
  | _ => ""

def linesAfter (written : String) : List Event → List LogLine
  | [] => []
  | event :: events =>
    let written := written ++ event.written
    event.line written :: linesAfter written events

def lines (events : List Event) : List LogLine := linesAfter "" events

end TickMachine.Simulation
