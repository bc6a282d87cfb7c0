import TickMachine.CommandLine.Files
import TickMachine.CommandLine.Help
import TickMachine.Image.Stored

/-! What the commands do. A command ends with a text for the standard output, messages for the
standard error and an exit code. -/

namespace TickMachine.CommandLine

structure Outcome where
  output : String
  messages : List String
  exitCode : UInt32
  deriving DecidableEq

def Outcome.errorLines (o : Outcome) : List String :=
  o.messages.flatMap fun message =>
    (Text.lines message.toList).map fun line => String.ofList (Text.dropReturn line)

inductive Fault
  | source (fault : FileFault)
  | translation (fault : Assembly.Fault)
  | imageFile (fault : FileFault)
  | image (fault : Image.Fault)
  | input (fault : FileFault)
  | run (fault : Simulation.Fault)
  | save (fault : FileFault)
  | noInstructions
  | noTerminal

def Fault.message : Fault → String
  | .source fault => "❌ Failed to read file: " ++ fault.message
  | .translation fault => "❌ Translation error: " ++ fault.message
  | .imageFile fault => "❌ Failed to load image: I/O error: " ++ fault.message
  | .image fault => "❌ Failed to load image: " ++ fault.message
  | .input fault => "❌ Failed to read input: " ++ fault.message
  | .run fault => "❌ " ++ fault.message
  | .save fault => "❌ Failed to save image: I/O error: " ++ fault.message
  | .noInstructions => "❌ No instructions to execute"
  | .noTerminal => "❌ Debugger error: no terminal"

def failure (output : String) (messages : List String) (fault : Fault) : Outcome :=
  ⟨output, messages ++ [fault.message], 1⟩

/-- A control character that a terminal could act on is logged as an escape. -/
def terminalSafe (c : Char) : List Char :=
  if c = '\x07' ∨ c = '\x08' ∨ c = '\x0c' ∨ c = '\x1b' ∨ c = '\x7f' then
    '\\' :: 'x' :: hexByte c.toNat
  else if 0x80 ≤ c.toNat ∧ c.toNat < 0xA0 then
    '\\' :: 'u' :: '\x7b' :: (hexByte c.toNat ++ ['\x7d'])
  else [c]
where
  hexByte (n : Nat) : List Char := [Nat.digitChar (n / 16), Nat.digitChar (n % 16)]

def logMessage (l : Simulation.LogLine) : String :=
  l.level.name ++ " " ++ String.ofList (l.message.toList.flatMap terminalSafe)

def logMessages (verbose : Bool) (events : List Simulation.Event) : List String :=
  ((Simulation.lines events).filter fun l => verbose || l.level != .debug).map logMessage

def isSourcePath (path : String) : Bool := ['.', 'a', 's', 'm'].isSuffixOf path.toList

/-- A path with every `.asm` in it replaced by `.json`. -/
def imagePath : List Char → List Char
  | '.' :: 'a' :: 's' :: 'm' :: rest => '.' :: 'j' :: 's' :: 'o' :: 'n' :: imagePath rest
  | c :: rest => c :: imagePath rest
  | [] => []

section

variable {m : Type → Type} [Monad m] (files : Files m)

def loadSource (path : String) : m (Except Fault Image) := do
  match ← files.read path with
  | .error fault => return .error (.source fault)
  | .ok text => return (Assembly.translate text.toList).mapError .translation

def loadImage (path : String) : m (Except Fault Image) := do
  match ← files.read path with
  | .error fault => return .error (.imageFile fault)
  | .ok text => return (Image.read text.toList).mapError .image

def loadProgram (path : String) : m (Except Fault Image) :=
  if isSourcePath path then loadSource files path else loadImage files path

def loadInput : Option String → m (Except Fault (List Char))
  | none => return .ok []
  | some path => do
    match ← files.read path with
    | .error fault => return .error (.input fault)
    | .ok text => return .ok (DataPath.terminated text.toList)

def runProgram (verbose : Bool) (program : String) (input : Option String)
    (config : Simulation.Config) : m Outcome := do
  match ← loadProgram files program with
  | .error fault => return failure "" [] fault
  | .ok image =>
    match ← loadInput files input with
    | .error fault => return failure "" [] fault
    | .ok queue =>
      let result := Simulation.simulate image queue config
      let messages := logMessages verbose result.events
      match result.outcome with
      -- An overflow is not reported by the command but breaks it off.
      | .error .clockOverflow =>
        return ⟨"", messages ++ [Simulation.Fault.clockOverflow.message], 101⟩
      | .error fault => return failure "" messages (.run fault)
      | .ok report =>
        let output := report.text ++ "\nInstructions: " ++ toString report.instructions ++
          " Ticks: " ++ toString report.ticks.toNat ++ "\n"
        return ⟨output, messages, 0⟩

def translateFile (source : String) (output : Option String) : m Outcome := do
  let target := output.getD (String.ofList (imagePath source.toList))
  let heading := "📝 Translating: " ++ source ++ " → " ++ target ++ "\n"
  match ← files.read source with
  | .error fault => return failure heading [] (.source fault)
  | .ok text =>
    match Assembly.translate text.toList with
    | .error fault => return failure heading [] (.translation fault)
    | .ok image =>
      match ← files.write target image.render with
      | .error fault => return failure heading [] (.save fault)
      | .ok () =>
        let counts := "LoC: " ++ toString (Text.lines text.toList).length ++ " Instr: " ++
          toString image.entryCount ++ "\n"
        return ⟨heading ++ counts, [], 0⟩

def listFile (path : String) : m Outcome := do
  match ← loadImage files path with
  | .error fault => return failure "" [] fault
  | .ok image => return ⟨image.listing ++ "\n", [], 0⟩

/-- The debugger is for a terminal; here a program only comes as far as being loaded. -/
def debugProgram (program : String) (input : Option String) : m Outcome := do
  match ← loadProgram files program with
  | .error fault => return failure "" [] fault
  | .ok image =>
    match ← loadInput files input with
    | .error fault => return failure "" [] fault
    | .ok _ =>
      return failure "" [] (if image.code.isEmpty then .noInstructions else .noTerminal)

def banner : String :=
  programName ++ " v0.1.0\nA tick-accurate microprogrammed machine simulator\n\n" ++
    "Use --help for available commands\n"

def execute (verbose : Bool) : Command → m Outcome
  | .banner => return ⟨banner, [], 0⟩
  | .run program input config => runProgram files verbose program input config
  | .translate source output => translateFile files source output
  | .disasm image => listFile files image
  | .debug program input => debugProgram files program input

def perform (arguments : List String) : m Outcome :=
  match request arguments with
  | .error fault => return ⟨"", ["error: " ++ fault.message], 2⟩
  | .ok (.help topic) => return ⟨topic.text, [], 0⟩
  | .ok .version => return ⟨programName ++ " 0.1.0\n", [], 0⟩
  | .ok (.execute verbose command) => execute files verbose command

end

def performIn (d : Directory) (arguments : List String) : Outcome × Directory :=
  Id.run ((perform Directory.access arguments).run d)

end TickMachine.CommandLine
