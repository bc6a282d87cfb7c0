import TickMachine.Json.Basic

/-! Writing JSON values without blanks. In strings only the quote, the backslash and the control
characters are escaped. -/

namespace TickMachine.Json

def hexDigit (d : Nat) : Char :=
  if d < 10 then Char.ofNat ('0'.toNat + d) else Char.ofNat ('a'.toNat + (d - 10))

def escape (c : Char) : List Char :=
  match c with
  | '"' => ['\\', '"']
  | '\\' => ['\\', '\\']
  | '\x08' => ['\\', 'b']
  | '\t' => ['\\', 't']
  | '\n' => ['\\', 'n']
  | '\x0c' => ['\\', 'f']
  | '\r' => ['\\', 'r']
  | c =>
    if c.toNat < 0x20 then ['\\', 'u', '0', '0', hexDigit (c.toNat / 16), hexDigit (c.toNat % 16)]
    else [c]

def quote (text : List Char) : List Char := '"' :: (text.flatMap escape ++ ['"'])

/-- A string without a text is written as `null`, which is not its value: nothing that is written
here has one. -/
def writeText : Option String → List Char
  | some text => quote text.toList
  | none => ['n', 'u', 'l', 'l']

def Numeral.write (n : Numeral) : List Char :=
  (if n.negative then ['-'] else []) ++ n.whole ++
    (if n.fraction = [] then [] else '.' :: n.fraction) ++
    match n.exponent with
    | none => []
    | some e => 'e' :: (toString e).toList

mutual

def write : Json → List Char
  | .null => ['n', 'u', 'l', 'l']
  | .bool true => ['t', 'r', 'u', 'e']
  | .bool false => ['f', 'a', 'l', 's', 'e']
  | .number n => n.write
  | .string text => writeText text
  | .array elements => '[' :: (writeElements elements ++ [']'])
  | .object members => '{' :: (writeMembers members ++ ['}'])

def writeElements : List Json → List Char
  | [] => []
  | [v] => v.write
  | v :: elements => v.write ++ ',' :: writeElements elements

def writeMembers : List (Option String × Json) → List Char
  | [] => []
  | [(name, v)] => writeText name ++ ':' :: v.write
  | (name, v) :: members => writeText name ++ ':' :: (v.write ++ ',' :: writeMembers members)

end

def render (v : Json) : String := String.ofList v.write

end TickMachine.Json
