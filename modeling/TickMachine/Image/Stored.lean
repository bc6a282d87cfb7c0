import TickMachine.Image.Basic
import TickMachine.Isa.Stored

/-! Stored images: a JSON array of the number of data words, the data words and the code words.
Reading finds faults in a fixed order: of the JSON, of the header, of the entries, of the words. -/

namespace TickMachine.Image

inductive Entry
  | length (n : UInt64)
  | word (w : Word)

def write (image : Image) : List Char :=
  let words := (image.data ++ image.code).map fun w => w.toJson.write
  '[' :: ([',', '\n', ' '].intercalate ((Json.ofInt image.data.length).write :: words) ++ [']'])

def render (image : Image) : String := String.ofList image.write

def entryOf? (v : Json) : Option Entry :=
  match v.uint64? with
  | some n => some (.length n)
  | none => (Word.ofJson? v).map .word

/-- A text that is no array of entries is malformed, and so is one that nests too deep or holds
unreadable parts, even where they would be ignored. -/
def entries? (text : List Char) : Option (List Entry) := do
  let v ← Json.read? text
  guard v.isPortable
  v.list? entryOf?

def words (position : Nat) : List Entry → Except Fault (List Word)
  | [] => .ok []
  | .length _ :: _ => .error (.unexpectedInteger position)
  | .word w :: entries => return w :: (← words (position + 1) entries)

def ofEntries : List Entry → Except Fault Image
  | [] => .error (.badHeader .empty)
  | .word _ :: _ => .error (.badHeader .notLength)
  | .length n :: entries => do
    let words ← words 1 entries
    if words.length < n.toNat then throw (.badHeader (.tooLong n words.length))
    let image : Image := ⟨words.take n.toNat, words.drop n.toNat⟩
    image.check
    return image

def read (text : List Char) : Except Fault Image :=
  match entries? text with
  | none => .error .malformed
  | some entries => ofEntries entries

end TickMachine.Image
