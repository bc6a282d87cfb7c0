import TickMachine.Assembly.Layout
import TickMachine.Image.Basic

/-! From source to image: once everything has its place, the names in the instructions are replaced
by numbers. A label hides a variable of the same name. -/

namespace TickMachine.Assembly

def Layout.lookup? (l : Layout) (name : List Char) : Option Int64 :=
  (l.code.labels.lookup name).or (l.data.names.lookup name)

def Layout.resolve (l : Layout) (line : Nat) : Operand → Except Fault Int64
  | .value v => .ok v
  | .symbol name =>
    match l.lookup? name with
    | some v => .ok v
    | none => .error ⟨line, .unresolvedSymbol name⟩

def Layout.word (l : Layout) (index : Nat) (d : Draft) : Except Fault Word := do
  return ⟨UInt64.ofNat index, d.opcode, ← d.operands.mapM (l.resolve d.line)⟩

def Layout.image (l : Layout) : Except Fault Image := do
  return ⟨l.data.cells, ← l.code.drafts.zipIdx.mapM fun (d, index) => l.word index d⟩

def translate (source : List Char) : Except Fault Image := do
  (← layout (statements source)).image

end TickMachine.Assembly
