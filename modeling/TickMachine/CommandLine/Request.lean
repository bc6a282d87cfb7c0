import TickMachine.CommandLine.Options
import TickMachine.Simulation.Run

/-! The commands of the program and what its arguments ask for. -/

namespace TickMachine.CommandLine

def programName : String := "accsim-emu"

inductive CommandName
  | run | translate | disasm | debug
  deriving DecidableEq

def CommandName.all : List CommandName := [.run, .translate, .disasm, .debug]

def verboseOption : OptionSpec :=
  ⟨'v', "verbose", .flag, "Log every instruction's machine state (up to --debug-limit)"⟩

def helpOption : OptionSpec := ⟨'h', "help", .help, "Print help"⟩

def versionOption : OptionSpec := ⟨'V', "version", .version, "Print version"⟩

def numberOption (short : Char) (long name about fallback : String) : OptionSpec :=
  ⟨short, long, .value ⟨name, .number, some fallback⟩, about⟩

def programOperand : OperandSpec := ⟨"PROGRAM", true, "Path to the ASM source or JSON image"⟩

def inputOperand : OperandSpec := ⟨"INPUT", false, "Optional input file fed to the input port"⟩

def limitOption : OptionSpec :=
  numberOption 'l' "limit" "LIMIT" "Maximum number of ticks to run"
    (toString Simulation.Config.default.limit.toNat)

def debugLimitOption : OptionSpec :=
  numberOption 'd' "debug-limit" "DEBUG_LIMIT" "Stop logging machine state after this tick"
    (toString Simulation.Config.default.debugLimit.toNat)

def registersOption : OptionSpec :=
  numberOption 'r' "registers" "REGISTERS" "Number of registers"
    (toString Simulation.Config.default.registers)

def outputOption : OptionSpec :=
  ⟨'o', "output", .value ⟨"OUTPUT", .text, none⟩, "Output image file"⟩

def CommandName.spec : CommandName → Spec
  | .run =>
    { name := "run"
      about := "Run a program until it halts, runs out of input, or hits the tick limit"
      operands := [programOperand, inputOperand]
      options := [limitOption, verboseOption, debugLimitOption, registersOption, helpOption]
      hasCommands := false }
  | .translate =>
    { name := "translate"
      about := "Translate ASM source to a JSON image"
      operands := [⟨"SOURCE", true, "Path to the source file"⟩]
      options := [outputOption, verboseOption, helpOption]
      hasCommands := false }
  | .disasm =>
    { name := "disasm"
      about := "Disassemble a JSON image to readable text"
      operands := [⟨"IMAGE", true, "Path to the image file"⟩]
      options := [verboseOption, helpOption]
      hasCommands := false }
  | .debug =>
    { name := "debug"
      about := "Interactive tick debugger"
      operands := [programOperand, inputOperand]
      options := [verboseOption, helpOption]
      hasCommands := false }

def topSpec : Spec where
  name := programName
  about := "A tick-accurate simulator for a small microprogrammed register machine"
  operands := []
  options := [verboseOption, helpOption, versionOption]
  hasCommands := true

def CommandName.ofText? (text : String) : Option CommandName := all.find? (·.spec.name == text)

inductive Command
  | banner
  | run (program : String) (input : Option String) (config : Simulation.Config)
  | translate (source : String) (output : Option String)
  | disasm (image : String)
  | debug (program : String) (input : Option String)

inductive Topic
  | program
  | command (name : CommandName)
  | help
  deriving DecidableEq

inductive Request
  | execute (verbose : Bool) (command : Command)
  | help (topic : Topic)
  | version

def config (g : Given) : Simulation.Config :=
  let standard := Simulation.Config.default
  { registers := ((g.number? "registers").map UInt64.toNat).getD standard.registers
    limit := (g.number? "limit").getD standard.limit
    debugLimit := (g.number? "debug-limit").getD standard.debugLimit }

def command (name : CommandName) (g : Given) : Except UsageFault Command := do
  match name with
  | .run => return .run (← g.operand 0 "PROGRAM") g.operands[1]? (config g)
  | .translate => return .translate (← g.operand 0 "SOURCE") (g.options.lookup "output")
  | .disasm => return .disasm (← g.operand 0 "IMAGE")
  | .debug => return .debug (← g.operand 0 "PROGRAM") g.operands[1]?

def helpTopic : List String → Except UsageFault Topic
  | [] => .ok .program
  | [text] =>
    if text = "help" then .ok .help
    else match CommandName.ofText? text with
      | some name => .ok (.command name)
      | none => .error (.unknownCommand text)
  | _ :: text :: _ => .error (.unknownCommand text)

def request (arguments : List String) : Except UsageFault Request := do
  match ← topSpec.scan .none arguments with
  | .help => return .help .program
  | .version => return .version
  | .given g => return .execute (g.has "verbose") .banner
  | .command text rest g =>
    if text = "help" then return .help (← helpTopic rest)
    else
      let some name := CommandName.ofText? text | throw (.unknownCommand text)
      match ← name.spec.scan .none rest with
      | .given own => return .execute (g.has "verbose" || own.has "verbose") (← command name own)
      | .command text _ _ => throw (.unexpectedOperand text)
      | .help => return .help (.command name)
      | .version => return .version

end TickMachine.CommandLine
