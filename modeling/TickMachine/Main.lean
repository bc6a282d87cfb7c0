import TickMachine.CommandLine.Execute

/-! The command line program: the commands on the files of the system. -/

namespace TickMachine.CommandLine

def fileFault : IO.Error → FileFault
  | .noFileOrDirectory .. => .notFound
  | .inappropriateType _ 20 _ => .notDirectory
  | .inappropriateType _ 21 _ => .isDirectory
  | .invalidArgument _ 36 _ => .nameTooLong
  | e => .other (toString e)

def systemFiles : Files IO where
  read path := do
    try
      let bytes ← IO.FS.readBinFile path
      match Content.ofBytes bytes.toList with
      | .text text => return .ok text
      | .binary _ => return .error .notText
    catch e => return .error (fileFault e)
  write path text := do
    try
      IO.FS.writeFile path text
      return .ok ()
    catch e => return .error (fileFault e)

end TickMachine.CommandLine

def main (arguments : List String) : IO UInt32 := do
  let outcome ← TickMachine.CommandLine.perform TickMachine.CommandLine.systemFiles arguments
  for message in outcome.messages do
    IO.eprintln message
  IO.print outcome.output
  return outcome.exitCode
