import TickMachine.Text.Decimal

/-! Reading command line arguments against a description of the options and operands of a command.
An option stands as `--name value`, `--name=value`, `-n value`, `-nvalue` or `-n=value`, flags may
be joined behind one dash, and after `--` everything is an operand. -/

namespace TickMachine.CommandLine

inductive ValueKind
  | text | number
  deriving DecidableEq

structure ValueSpec where
  name : String
  kind : ValueKind
  fallback : Option String

inductive Effect
  | flag | help | version
  | value (spec : ValueSpec)

structure OptionSpec where
  short : Char
  long : String
  effect : Effect
  about : String

structure OperandSpec where
  name : String
  isRequired : Bool
  about : String

structure Spec where
  name : String
  about : String
  operands : List OperandSpec
  options : List OptionSpec
  hasCommands : Bool

inductive UsageFault
  | unknownOption (text : String)
  | unknownCommand (name : String)
  | missingValue (option : String)
  | unexpectedValue (option : String)
  | badValue (option value : String)
  | repeated (option : String)
  | unexpectedOperand (text : String)
  | missingOperand (name : String)

def UsageFault.message : UsageFault → String
  | .unknownOption text => "unknown option '" ++ text ++ "'"
  | .unknownCommand name => "unknown command '" ++ name ++ "'"
  | .missingValue option => "option '--" ++ option ++ "' needs a value"
  | .unexpectedValue option => "option '--" ++ option ++ "' takes no value"
  | .badValue option value => "option '--" ++ option ++ "' cannot be '" ++ value ++ "'"
  | .repeated option => "option '--" ++ option ++ "' is given twice"
  | .unexpectedOperand text => "unexpected argument '" ++ text ++ "'"
  | .missingOperand name => "missing argument " ++ name

structure Given where
  options : List (String × String)
  operands : List String

namespace Given

def none : Given := ⟨[], []⟩

def has (g : Given) (option : String) : Bool := (g.options.lookup option).isSome

def number? (g : Given) (option : String) : Option UInt64 :=
  g.options.lookup option >>= fun text => Text.uint64? text.toList

def operand (g : Given) (position : Nat) (name : String) : Except UsageFault String :=
  match g.operands[position]? with
  | some text => .ok text
  | Option.none => .error (.missingOperand name)

def addOption (g : Given) (o : OptionSpec) (value : String) : Except UsageFault Given := do
  if g.has o.long then throw (.repeated o.long)
  if let .value ⟨_, .number, _⟩ := o.effect then
    if (Text.uint64? value.toList).isNone then throw (.badValue o.long value)
  return { g with options := (o.long, value) :: g.options }

end Given

inductive Reading
  | given (g : Given)
  | wants (o : OptionSpec) (g : Given)
  | help | version

namespace Spec

def addOperand (spec : Spec) (g : Given) (text : String) : Except UsageFault Given :=
  if g.operands.length < spec.operands.length then
    .ok { g with operands := g.operands ++ [text] }
  else .error (.unexpectedOperand text)

def readLong (spec : Spec) (g : Given) (name : String) (attached : Option String) :
    Except UsageFault Reading := do
  let some o := spec.options.find? (·.long == name) | throw (.unknownOption ("--" ++ name))
  match o.effect, attached with
  | .value _, some value => return .given (← g.addOption o value)
  | .value _, none => return .wants o g
  | _, some _ => throw (.unexpectedValue o.long)
  | .flag, none => return .given (← g.addOption o "")
  | .help, none => return .help
  | .version, none => return .version

/-- Flags joined behind one dash; the first option with a value takes the rest as its value. -/
def readShorts (spec : Spec) (g : Given) : List Char → Except UsageFault Reading
  | [] => .ok (.given g)
  | c :: letters => do
    let some o := spec.options.find? (·.short == c)
      | throw (.unknownOption ("-" ++ String.singleton c))
    match o.effect with
    | .flag => readShorts spec (← g.addOption o "") letters
    | .help => return .help
    | .version => return .version
    | .value _ =>
      match letters with
      | [] => return .wants o g
      | '=' :: value => return .given (← g.addOption o (String.ofList value))
      | value => return .given (← g.addOption o (String.ofList value))

inductive Scan
  | given (g : Given)
  | command (name : String) (arguments : List String) (g : Given)
  | help | version

def namesOption (argument : String) : Bool :=
  match argument.toList with
  | '-' :: _ :: _ => true
  | _ => false

def scan (spec : Spec) (g : Given) : List String → Except UsageFault Scan
  | [] => .ok (.given g)
  | argument :: rest => do
    if argument = "--" then return .given (← rest.foldlM spec.addOperand g)
    else if namesOption argument then
      let reading ← match argument.toList with
        | '-' :: '-' :: text =>
          spec.readLong g (String.ofList (text.takeWhile (· != '=')))
            ((text.dropWhile (· != '=')).tail?.map String.ofList)
        | letters => spec.readShorts g letters.tail
      match reading with
      | .given g => scan spec g rest
      | .help => return .help
      | .version => return .version
      | .wants o g =>
        match rest with
        | [] => throw (.missingValue o.long)
        | value :: rest =>
          if namesOption value then throw (.missingValue o.long)
          else scan spec (← g.addOption o value) rest
    else if spec.hasCommands then return .command argument rest g
    else scan spec (← spec.addOperand g argument) rest

end Spec
end TickMachine.CommandLine
