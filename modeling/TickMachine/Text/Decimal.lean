import TickMachine.Numeric.Width

/-! Decimal numerals as the assembler and the command line read them: an optional sign in front of
one or more ASCII digits, refused if the number does not fit its type. -/

namespace TickMachine.Text

def digits? (text : List Char) : Option Nat :=
  if text ≠ [] ∧ text.all Char.isDigit then some (Nat.ofDigitChars 10 text 0) else none

theorem digits?_toDigits (n : Nat) : digits? (Nat.toDigits 10 n) = some n := by
  have hd : (Nat.toDigits 10 n).all Char.isDigit := by
    rw [List.all_eq_true]
    exact fun c hc => Nat.isDigit_of_mem_toDigits (by decide) (by decide) hc
  rw [digits?, if_pos ⟨Nat.toDigits_ne_nil, hd⟩, Nat.ofDigitChars_ten_toDigits]

def signed? : List Char → Option Int
  | '-' :: text => (digits? text).map fun n => -(n : Int)
  | '+' :: text => (digits? text).map fun n => (n : Int)
  | text => (digits? text).map fun n => (n : Int)

def int64? (text : List Char) : Option Int64 := signed? text >>= Numeric.signed64?

def unsigned? : List Char → Option Nat
  | '+' :: text => digits? text
  | text => digits? text

def uint64? (text : List Char) : Option UInt64 :=
  unsigned? text >>= fun n => Numeric.unsigned64? n

end TickMachine.Text
