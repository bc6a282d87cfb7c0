import TickMachine.Assembly.Translate
import TickMachine.Debugger.View
import TickMachine.Image.Stored
import TickMachine.Main
import TickMachine.Machine.Stored
import TickMachine.Machine.Snapshot
import TickMachine.Session
import TickMachine.Simulation.Stored
import TickMachine.Text.Blank
import TickMachine.Text.Decimal
import TickMachine.Proofs.Alu
import TickMachine.Proofs.DataPath.Actions
import TickMachine.Proofs.Machine.MicroProgram
import TickMachine.Proofs.Machine.Meaning
import TickMachine.Proofs.DataPath.Frame
import TickMachine.Proofs.Machine.Control
import TickMachine.Proofs.Machine.Failure
import TickMachine.Proofs.Assembly.Shape
import TickMachine.Proofs.Machine.Reach
import TickMachine.Proofs.Machine.Safety
import TickMachine.Proofs.Machine.Room
import TickMachine.Proofs.Assembly.Printed
import TickMachine.Proofs.Assembly.Reassembly
import TickMachine.Proofs.Image.Stored
import TickMachine.Proofs.Machine.Stored
import TickMachine.Proofs.Machine.Transfer
import TickMachine.Proofs.Drivers
import TickMachine.Proofs.Simulation.Room
import TickMachine.Proofs.Simulation.Pace
import TickMachine.Proofs.Debugger.Running
import TickMachine.Proofs.Debugger.Reset
import TickMachine.Proofs.Session.Calls
import TickMachine.Proofs.CommandLine.Files
import TickMachine.Proofs.CommandLine.Commands
import TickMachine.Proofs.Agreement
import TickMachine.Proofs.Json.Grammar
import TickMachine.Proofs.Json.Parsed
import TickMachine.Proofs.Isa.Format
import TickMachine.Proofs.Image.Format
import TickMachine.Proofs.Image.Alike
import TickMachine.Proofs.Assembly.WellFormed
import TickMachine.Proofs.DataPath.Bare
import TickMachine.Proofs.Machine.Bare
import TickMachine.Proofs.Simulation.Bare
import TickMachine.Proofs.Simulation.Printing
import TickMachine.Proofs.Simulation.Trace
import TickMachine.Proofs.Programs.Echo
import TickMachine.Proofs.Programs.Greeting
import TickMachine.Proofs.Traversal
import TickMachine.Proofs.Assembly.Outline
import TickMachine.Proofs.Assembly.Sections
import TickMachine.Proofs.Assembly.Addresses
import TickMachine.Proofs.Assembly.Lines
import TickMachine.Proofs.Assembly.Diagnosis
import TickMachine.Proofs.Machine.Accumulation
import TickMachine.Proofs.Assembly.LinearForm
import TickMachine.Proofs.Text.Words
import TickMachine.Proofs.Assembly.Clauses
import TickMachine.Proofs.Assembly.Recoding
import TickMachine.Proofs.Assembly.InstructionLines
import TickMachine.Proofs.Assembly.Abbreviations
import TickMachine.Proofs.Assembly.Restyling
import TickMachine.Proofs.Assembly.Renaming
import TickMachine.Proofs.Assembly.Reference
import TickMachine.Proofs.DataPath.Operations
import TickMachine.Proofs.DataPath.Atomic
import TickMachine.Proofs.DataPath.Arithmetic
import TickMachine.Proofs.DataPath.Flag
import TickMachine.Proofs.Machine.Flag
import TickMachine.Proofs.CommandLine.Translation
import TickMachine.Proofs.Image.Listing
import TickMachine.Proofs.Debugger.Layout
import TickMachine.Proofs.Debugger.Listing
import TickMachine.Proofs.Debugger.Screen
