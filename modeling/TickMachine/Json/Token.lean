import TickMachine.Json.Basic

/-! The tokens of a JSON text, found one character at a time. -/

namespace TickMachine.Json

inductive Token
  | openArray | closeArray | openObject | closeObject | comma | colon
  | null
  | bool (value : Bool)
  | number (numeral : Numeral)
  | string (text : Option String)
  deriving DecidableEq

def exponent? : List Char → Option (Option Int)
  | [] => some none
  | c :: text =>
    if c = 'e' ∨ c = 'E' then
      let (negative, digits) := match text with
        | '-' :: digits => (true, digits)
        | '+' :: digits => (false, digits)
        | digits => (false, digits)
      if digits ≠ [] ∧ digits.all Char.isDigit then
        let value : Int := Nat.ofDigitChars 10 digits 0
        some (some (if negative then -value else value))
      else none
    else none

def Numeral.read? (text : List Char) : Option Numeral := do
  let (negative, text) := match text with
    | '-' :: rest => (true, rest)
    | rest => (false, rest)
  let whole := text.takeWhile Char.isDigit
  let rest := text.dropWhile Char.isDigit
  guard (whole = ['0'] ∨ (whole ≠ [] ∧ whole.head? ≠ some '0'))
  match rest with
  | '.' :: rest =>
    let fraction := rest.takeWhile Char.isDigit
    guard (fraction ≠ [])
    return ⟨negative, whole, fraction, ← exponent? (rest.dropWhile Char.isDigit)⟩
  | rest => return ⟨negative, whole, [], ← exponent? rest⟩

def isBare (c : Char) : Bool := c.isAlphanum || c == '-' || c == '+' || c == '.'

def bare? (text : List Char) : Option Token :=
  if text = ['n', 'u', 'l', 'l'] then some .null
  else if text = ['t', 'r', 'u', 'e'] then some (.bool true)
  else if text = ['f', 'a', 'l', 's', 'e'] then some (.bool false)
  else (Numeral.read? text).map .number

def isLeadSurrogate (unit : Nat) : Bool := 0xD800 ≤ unit && unit < 0xDC00

def isTrailSurrogate (unit : Nat) : Bool := 0xDC00 ≤ unit && unit < 0xE000

/-- The characters that a run of code units stands for: a lead and a trail surrogate together are
one character, and neither is one alone. -/
def characters? : List Nat → Option (List Char)
  | [] => some []
  | unit :: units =>
    if isLeadSurrogate unit then
      match units with
      | [] => none
      | trail :: units =>
        if isTrailSurrogate trail then
          let code := 0x10000 + (unit - 0xD800) * 0x400 + (trail - 0xDC00)
          (characters? units).map (Char.ofNat code :: ·)
        else none
    else if isTrailSurrogate unit then none
    else (characters? units).map (Char.ofNat unit :: ·)

def stringToken (units : List Nat) : Token :=
  .string ((characters? units.reverse).map String.ofList)

def escaped? (c : Char) : Option Char :=
  match c with
  | '"' | '\\' | '/' => some c
  | 'b' => some '\x08'
  | 'f' => some '\x0c'
  | 'n' => some '\n'
  | 'r' => some '\r'
  | 't' => some '\t'
  | _ => none

def hexDigit? (c : Char) : Option Nat :=
  if '0' ≤ c ∧ c ≤ '9' then some (c.toNat - '0'.toNat)
  else if 'a' ≤ c ∧ c ≤ 'f' then some (c.toNat - 'a'.toNat + 10)
  else if 'A' ≤ c ∧ c ≤ 'F' then some (c.toNat - 'A'.toNat + 10)
  else none

/-- Where the reader stands: between tokens, inside a numeral or word (its characters last first),
inside a string (its code units last first), behind a backslash there, or inside the four
hexadecimal digits of an escape. -/
inductive Scan
  | between
  | bare (taken : List Char)
  | quoted (units : List Nat)
  | escape (units : List Nat)
  | code (units : List Nat) (digits : Nat) (value : Nat)

def Scan.begin (tokens : List Token) (c : Char) : Option (Scan × List Token) :=
  match c with
  | ' ' | '\t' | '\n' | '\r' => some (.between, tokens)
  | '[' => some (.between, .openArray :: tokens)
  | ']' => some (.between, .closeArray :: tokens)
  | '{' => some (.between, .openObject :: tokens)
  | '}' => some (.between, .closeObject :: tokens)
  | ',' => some (.between, .comma :: tokens)
  | ':' => some (.between, .colon :: tokens)
  | '"' => some (.quoted [], tokens)
  | c => if isBare c then some (.bare [c], tokens) else none

def Scan.next : Scan × List Token → Char → Option (Scan × List Token)
  | (.between, tokens), c => begin tokens c
  | (.bare taken, tokens), c =>
    if isBare c then some (.bare (c :: taken), tokens)
    else do begin ((← bare? taken.reverse) :: tokens) c
  | (.quoted units, tokens), c =>
    if c = '"' then some (.between, stringToken units :: tokens)
    else if c = '\\' then some (.escape units, tokens)
    else if c.toNat < 0x20 then none
    else some (.quoted (c.toNat :: units), tokens)
  | (.escape units, tokens), c =>
    if c = 'u' then some (.code units 0 0, tokens)
    else (escaped? c).map fun e => (.quoted (e.toNat :: units), tokens)
  | (.code units digits value, tokens), c =>
    (hexDigit? c).map fun d =>
      let value := 16 * value + d
      if digits = 3 then (.quoted (value :: units), tokens)
      else (.code units (digits + 1) value, tokens)

def tokens? (text : List Char) : Option (List Token) := do
  match ← text.foldlM Scan.next (.between, []) with
  | (.between, tokens) => return tokens.reverse
  | (.bare taken, tokens) => return ((← bare? taken.reverse) :: tokens).reverse
  | _ => none

end TickMachine.Json
