/-! Blank characters and the ways a line of source is cut at them. The blank characters are those
with the Unicode property White_Space; words are the runs between them. -/

namespace TickMachine.Text

/-- The White_Space characters: the ASCII controls from tab to carriage return, the spaces, the
next-line control, and the line and paragraph separators. -/
def isBlank (c : Char) : Bool :=
  let n := c.toNat
  (9 ≤ n && n ≤ 13) || n == 0x20 || n == 0x85 || n == 0xA0 || n == 0x1680 ||
    (0x2000 ≤ n && n ≤ 0x200A) || n == 0x2028 || n == 0x2029 || n == 0x202F || n == 0x205F ||
    n == 0x3000

def trimStartWhile (p : Char → Bool) (text : List Char) : List Char := text.dropWhile p

def trimEndWhile (p : Char → Bool) (text : List Char) : List Char :=
  (text.reverse.dropWhile p).reverse

def trimWhile (p : Char → Bool) (text : List Char) : List Char :=
  trimEndWhile p (trimStartWhile p text)

def trimStart : List Char → List Char := trimStartWhile isBlank

def trim : List Char → List Char := trimWhile isBlank

def splitOn (p : Char → Bool) : List Char → List (List Char)
  | [] => [[]]
  | c :: text =>
    if p c then [] :: splitOn p text
    else match splitOn p text with
      | [] => [[c]]
      | piece :: pieces => (c :: piece) :: pieces

theorem splitOn_ne_nil (p : Char → Bool) (text : List Char) : splitOn p text ≠ [] := by
  cases text with
  | nil => simp [splitOn]
  | cons c text =>
    rw [splitOn]
    split
    · simp
    · split <;> simp

def lines : List Char → List (List Char) := splitOn (· == '\n')

def dropReturn (line : List Char) : List Char :=
  if line.getLast? = some '\r' then line.dropLast else line

/-- Lines without their ends. The last one has no end, so that it keeps a carriage return. -/
def dropReturns : List (List Char) → List (List Char)
  | [] => []
  | [last] => [last]
  | line :: lines => dropReturn line :: dropReturns lines

def words (text : List Char) : List (List Char) := (splitOn isBlank text).filter (!·.isEmpty)

def splitAtBlank? (text : List Char) : Option (List Char × List Char) :=
  match text.dropWhile (!isBlank ·) with
  | [] => none
  | _ :: rest => some (text.takeWhile (!isBlank ·), rest)

end TickMachine.Text
