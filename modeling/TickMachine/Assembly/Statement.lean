import TickMachine.Isa.Opcode
import TickMachine.Text.Blank
import TickMachine.Text.Decimal

/-! Source text as numbered statements. A semicolon starts a comment, a line that begins with
`.data` or `.code` opens a section, and every other line that is not blank is a statement of the
section around it. -/

namespace TickMachine.Assembly

inductive Section
  | data | code
  deriving DecidableEq

structure Statement where
  line : Nat
  place : Option Section
  text : List Char
  deriving DecidableEq

def content (line : List Char) : List Char := Text.trim (line.takeWhile (· != ';'))

def directive? (text : List Char) : Option Section :=
  if ['.', 'd', 'a', 't', 'a'].isPrefixOf text then some .data
  else if ['.', 'c', 'o', 'd', 'e'].isPrefixOf text then some .code
  else none

def statementsFrom (line : Nat) (place : Option Section) : List (List Char) → List Statement
  | [] => []
  | raw :: lines =>
    let text := content raw
    if text = [] then statementsFrom (line + 1) place lines
    else match directive? text with
      | some opened => statementsFrom (line + 1) (some opened) lines
      | none => ⟨line, place, text⟩ :: statementsFrom (line + 1) place lines

theorem statementsFrom_cons {line : Nat} {place : Option Section} {raw text : List Char}
    {lines : List (List Char)} (h : content raw = text) (hne : text ≠ [])
    (hplain : directive? text = none) : statementsFrom line place (raw :: lines) =
      ⟨line, place, text⟩ :: statementsFrom (line + 1) place lines := by
  rw [statementsFrom]
  simp only [h, if_neg hne, hplain]

def statements (source : List Char) : List Statement := statementsFrom 1 none (Text.lines source)

structure Declaration where
  kind : List Char
  name : List Char
  value : List Char
  deriving DecidableEq

def Declaration.read? (text : List Char) : Option Declaration := do
  let (kind, rest) ← Text.splitAtBlank? text
  let (name, value) ← Text.splitAtBlank? (Text.trimStart rest)
  let value := Text.trim value
  if value = [] then none else some ⟨kind, name, value⟩

inductive Operand
  | value (value : Int64)
  | symbol (name : List Char)
  deriving DecidableEq

def register? : List Char → Option Int64
  | 'r' :: digits => do
    let n ← Text.digits? digits
    if 1 ≤ n ∧ n ≤ Int64.maxValue.toInt then some (Int64.ofNat (n - 1)) else none
  | _ => none

def Operand.read (text : List Char) : Operand :=
  match Text.int64? text with
  | some v => .value v
  | none =>
    match register? text with
    | some r => .value r
    | none => .symbol text

inductive CodeLine
  | label (name : List Char)
  | instruction (mnemonic : List Char) (operands : List Operand)
  deriving DecidableEq

/-- Commas behind an operand are dropped, and a word of commas only is no operand. -/
def operands (texts : List (List Char)) : List Operand :=
  ((texts.map (Text.trimEndWhile (· == ','))).filter (!·.isEmpty)).map Operand.read

/-- A text that ends with a colon is a label, without the colons around it. -/
def CodeLine.read (text : List Char) : CodeLine :=
  if text.getLast? = some ':' then .label (Text.trim (Text.trimWhile (· == ':') text))
  else match Text.words text with
    | [] => .instruction [] []
    | mnemonic :: texts => .instruction mnemonic (Assembly.operands texts)

end TickMachine.Assembly
