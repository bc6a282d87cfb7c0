import TickMachine.Isa.Opcode

/-! Why a source cannot be translated. Every fault names the line it was found on. -/

namespace TickMachine.Assembly

inductive DataFault
  | incomplete
  | notInteger (text : List Char)
  | negativeSize (size : Int64)
  deriving DecidableEq

def DataFault.message : DataFault → String
  | .incomplete => "expected `KIND name value`"
  | .notInteger text => "expected an integer, found `" ++ String.ofList text ++ "`"
  | .negativeSize size => "buffer size " ++ toString size.toInt ++ " is negative"

inductive Cause
  | noSection
  | unknownDataKind (kind : List Char)
  | malformedData (cause : DataFault)
  | unknownMnemonic (mnemonic : List Char)
  | wrongArity (opcode : Opcode) (found : Nat)
  | badLinearArity (found : Nat)
  | duplicateSymbol (name : List Char)
  | unresolvedSymbol (name : List Char)
  deriving DecidableEq

def Cause.message : Cause → String
  | .noSection => "statement outside of a .data or .code section"
  | .unknownDataKind kind => "unknown data kind `" ++ String.ofList kind ++ "`"
  | .malformedData cause => "malformed data declaration: " ++ cause.message
  | .unknownMnemonic mnemonic => "unknown mnemonic `" ++ String.ofList mnemonic ++ "`"
  | .wrongArity opcode found =>
    opcode.display ++ " takes " ++ toString opcode.signature.length ++ " arguments, found " ++
      toString found
  | .badLinearArity found =>
    "linear needs an odd number (>= 3) of arguments, found " ++ toString found
  | .duplicateSymbol name => "`" ++ String.ofList name ++ "` is already defined"
  | .unresolvedSymbol name => "undefined symbol `" ++ String.ofList name ++ "`"

structure Fault where
  line : Nat
  cause : Cause
  deriving DecidableEq

def Fault.message (fault : Fault) : String :=
  "line " ++ toString fault.line ++ ": " ++ fault.cause.message

end TickMachine.Assembly
