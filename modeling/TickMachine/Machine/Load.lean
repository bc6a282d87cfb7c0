import TickMachine.Image.Basic
import TickMachine.Machine.Basic

/-! Machines that an image is loaded into. -/

namespace TickMachine.Machine

def load (image : Image) (registers : Nat) (input : List Char) : Machine :=
  start image.code.toArray (DataPath.start image.data.toArray registers input)

def load? (image : Image) (registers : Nat) (input : List Char) : Except DataPath.Fault Machine :=
  if registers = 0 then .error .noRegisters else .ok (load image registers input)

end TickMachine.Machine
