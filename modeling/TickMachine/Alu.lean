import TickMachine.Numeric.Width

/-! The arithmetic unit. A result is the exact integer or a fault, and it alone decides the zero
flag: 0 sets it, 1 clears it, any other result and every fault leave it. -/

namespace TickMachine

inductive Operation
  | cmp | add | mul | mod
  deriving DecidableEq

def Operation.name : Operation → String
  | .cmp => "Cmp"
  | .add => "Add"
  | .mul => "Mul"
  | .mod => "Mod"

namespace Alu

inductive Fault
  | overflow (operation : Operation) (left right : Int64)
  | divisionByZero (left : Int64)
  deriving DecidableEq

def Fault.message : Fault → String
  | .overflow op left right =>
    op.name ++ " overflow on " ++ toString left.toInt ++ " and " ++ toString right.toInt
  | .divisionByZero left => toString left.toInt ++ " mod 0"

def represent (op : Operation) (left right : Int64) (n : Int) : Except Fault Int64 :=
  match Numeric.signed64? n with
  | some v => .ok v
  | none => .error (.overflow op left right)

/-- Comparing yields 0 for equal operands and 1 for others. The remainder takes the sign of the
divisor. -/
def compute (op : Operation) (left right : Int64) : Except Fault Int64 :=
  match op with
  | .cmp => .ok (if left = right then 0 else 1)
  | .add => represent op left right (left.toInt + right.toInt)
  | .mul => represent op left right (left.toInt * right.toInt)
  | .mod =>
    if right = 0 then .error (.divisionByZero left)
    else represent op left right (left.toInt.fmod right.toInt)

def flagAfter (flag : Bool) (result : Int64) : Bool :=
  if result = 0 then true else if result = 1 then false else flag

end Alu
end TickMachine
