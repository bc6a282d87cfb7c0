import TickMachine.Numeric.Binary64

/-! JSON values as a text shows them. A numeral keeps its parts, because whether it counts as an
integer depends on how it is written; a string whose escapes name a lone surrogate has no text. -/

namespace TickMachine.Json

structure Numeral where
  negative : Bool
  whole : List Char
  fraction : List Char
  exponent : Option Int
  deriving DecidableEq

end Json

inductive Json
  | null
  | bool (value : Bool)
  | number (numeral : Json.Numeral)
  | string (text : Option String)
  | array (elements : List Json)
  | object (members : List (Option String × Json))

namespace Json
namespace Numeral

def ofInt (n : Int) : Numeral := ⟨decide (n < 0), Nat.toDigits 10 n.natAbs, [], none⟩

def toInt? (n : Numeral) : Option Int :=
  if n.fraction = [] ∧ n.exponent = none then
    let value := Nat.ofDigitChars 10 n.whole 0
    if n.negative then if value = 0 then none else some (-value) else some value
  else none

theorem toInt?_ofInt (n : Int) : (ofInt n).toInt? = some n := by
  simp only [toInt?, ofInt, and_self, if_true, Nat.ofDigitChars_ten_toDigits, decide_eq_true_eq]
  rcases Int.lt_or_le n 0 with h | h
  · rw [if_pos h, if_neg (by omega)]
    congr 1
    omega
  · rw [if_neg (by omega)]
    congr 1
    omega

def absorb : Nat → List Char → Nat × List Char
  | significand, [] => (significand, [])
  | significand, c :: digits =>
    let more := 10 * significand + (c.toNat - '0'.toNat)
    if more < UInt64.size then absorb more digits else (significand, c :: digits)

/-- Whether the number lies in the range of a double, computed as a 64-bit significand times a power
of ten that are both rounded first. -/
def isFinite (n : Numeral) : Bool :=
  let (significand, left) := absorb 0 n.whole
  let (significand, dropped) := absorb significand n.fraction
  let exponent : Int :=
    left.length - (n.fraction.length - dropped.length : Nat) + n.exponent.getD 0
  significand = 0 ∨ exponent < 0 ∨
    (exponent ≤ 308 ∧
      Numeric.nearestNat significand * Numeric.nearestNat (Nat.pow 10 exponent.toNat) <
        Numeric.overflowBound)

end Numeral

mutual

def depth : Json → Nat
  | .array elements => depthElements elements + 1
  | .object members => depthMembers members + 1
  | _ => 0

def depthElements : List Json → Nat
  | [] => 0
  | v :: elements => max v.depth (depthElements elements)

def depthMembers : List (Option String × Json) → Nat
  | [] => 0
  | (_, v) :: members => max v.depth (depthMembers members)

end

mutual

def isReadable : Json → Bool
  | .null | .bool _ => true
  | .number n => n.isFinite
  | .string text => text.isSome
  | .array elements => areReadable elements
  | .object members => haveReadable members

def areReadable : List Json → Bool
  | [] => true
  | v :: elements => v.isReadable && areReadable elements

def haveReadable : List (Option String × Json) → Bool
  | [] => true
  | (name, v) :: members => name.isSome && v.isReadable && haveReadable members

end

def maxDepth : Nat := 127

def isPortable (v : Json) : Bool := v.isReadable && v.depth ≤ maxDepth

def ofInt (n : Int) : Json := .number (.ofInt n)

def ofText (text : String) : Json := .string (some text)

def record (members : List (String × Json)) : Json :=
  .object (members.map fun (name, v) => (some name, v))

end Json
end TickMachine
