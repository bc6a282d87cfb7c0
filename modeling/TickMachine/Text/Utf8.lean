/-! UTF-8: bytes as text if they are well formed, and a reading of any bytes in which each
ill-formed part counts as one replacement character. -/

namespace TickMachine.Text

/-- How many bytes follow a leading byte, and the range of the first of them: overlong forms,
surrogates and numbers above U+10FFFF are excluded there. -/
def leading? (b : UInt8) : Option (Nat × UInt8 × UInt8) :=
  if 0xC2 ≤ b ∧ b < 0xE0 then some (1, 0x80, 0xBF)
  else if b = 0xE0 then some (2, 0xA0, 0xBF)
  else if b = 0xED then some (2, 0x80, 0x9F)
  else if 0xE1 ≤ b ∧ b < 0xF0 then some (2, 0x80, 0xBF)
  else if b = 0xF0 then some (3, 0x90, 0xBF)
  else if 0xF1 ≤ b ∧ b < 0xF4 then some (3, 0x80, 0xBF)
  else if b = 0xF4 then some (3, 0x80, 0x8F)
  else none

structure Pending where
  missing : Nat
  low : UInt8
  high : UInt8
  bits : Nat

def decodeFrom : Option Pending → List UInt8 → List (Option Char)
  | none, [] => []
  | some _, [] => [none]
  | none, b :: bytes =>
    if b < 0x80 then some (Char.ofNat b.toNat) :: decodeFrom none bytes
    else match leading? b with
      | none => none :: decodeFrom none bytes
      | some (missing, low, high) =>
        decodeFrom (some ⟨missing, low, high, b.toNat % (1 <<< (6 - missing))⟩) bytes
  | some p, b :: bytes =>
    if p.low ≤ b ∧ b ≤ p.high then
      let bits := 64 * p.bits + b.toNat % 64
      if p.missing ≤ 1 then some (Char.ofNat bits) :: decodeFrom none bytes
      else decodeFrom (some ⟨p.missing - 1, 0x80, 0xBF, bits⟩) bytes
    else if b < 0x80 then none :: some (Char.ofNat b.toNat) :: decodeFrom none bytes
    else match leading? b with
      | none => none :: none :: decodeFrom none bytes
      | some (missing, low, high) =>
        none :: decodeFrom (some ⟨missing, low, high, b.toNat % (1 <<< (6 - missing))⟩) bytes

def decode? (bytes : List UInt8) : Option (List Char) := (decodeFrom none bytes).mapM id

def decodeReplacing (bytes : List UInt8) : List Char :=
  (decodeFrom none bytes).map (·.getD '\ufffd')

end TickMachine.Text
