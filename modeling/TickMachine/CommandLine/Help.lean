import TickMachine.CommandLine.Request
import TickMachine.Text.Padding

/-! The help texts: usage, then commands, arguments and options in two columns. -/

namespace TickMachine.CommandLine

def helpRows (rows : List (String × String)) : String :=
  let width := (rows.map fun row => row.1.length).foldl max 0
  String.join (rows.map fun (left, right) =>
    "  " ++ Text.padRight width left ++ "  " ++ right ++ "\n")

def helpSection (title : String) : List (String × String) → String
  | [] => ""
  | rows => "\n" ++ title ++ ":\n" ++ helpRows rows

def OperandSpec.display (o : OperandSpec) : String :=
  if o.isRequired then "<" ++ o.name ++ ">" else "[" ++ o.name ++ "]"

def OptionSpec.helpRow (o : OptionSpec) : String × String :=
  let names := "-" ++ String.singleton o.short ++ ", --" ++ o.long
  match o.effect with
  | .value ⟨name, _, some fallback⟩ =>
    (names ++ " <" ++ name ++ ">", o.about ++ " [default: " ++ fallback ++ "]")
  | .value ⟨name, _, none⟩ => (names ++ " <" ++ name ++ ">", o.about)
  | _ => (names, o.about)

def helpAbout : String := "Print this message or the help of the given subcommand(s)"

def commandRows : List (String × String) :=
  CommandName.all.map (fun name => (name.spec.name, name.spec.about)) ++ [("help", helpAbout)]

def topHelp : String :=
  topSpec.about ++ "\n\nUsage: " ++ programName ++ " [OPTIONS] [COMMAND]\n" ++
    helpSection "Commands" commandRows ++
    helpSection "Options" (topSpec.options.map OptionSpec.helpRow)

def CommandName.help (name : CommandName) : String :=
  let spec := name.spec
  spec.about ++ "\n\nUsage: " ++ programName ++ " " ++ spec.name ++ " [OPTIONS]" ++
    String.join (spec.operands.map fun o => " " ++ o.display) ++ "\n" ++
    helpSection "Arguments" (spec.operands.map fun o => (o.display, o.about)) ++
    helpSection "Options" (spec.options.map OptionSpec.helpRow)

def helpHelp : String :=
  helpAbout ++ "\n\nUsage: " ++ programName ++ " help [COMMAND]...\n" ++
    helpSection "Arguments" [("[COMMAND]...", "Print help for the subcommand(s)")]

def Topic.text : Topic → String
  | .program => topHelp
  | .command name => name.help
  | .help => helpHelp

end TickMachine.CommandLine
