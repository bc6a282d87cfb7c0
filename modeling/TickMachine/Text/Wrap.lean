import TickMachine.Text.Blank

/-! Breaking a line at blanks so that no part is wider than a given number of columns. Blanks in
front of a word are kept, those at a break are dropped as far as the line had room for them, and a
word wider than a line is cut. A no-break space is part of its word. -/

namespace TickMachine.Text

/-- The columns that a character up to U+00FF takes: the soft hyphen none and every other one,
control characters among them, a single one. -/
def columns (c : Char) : Nat := if c = '\u00ad' then 0 else 1

def width (text : List Char) : Nat := text.foldr (fun c n => columns c + n) 0

def isBreak (c : Char) : Bool := isBlank c && c != '\u00a0'

/-- A line on the way: its finished parts, last first, then what is certain to stand in the next
part, and behind it the blanks and the word that are still to be placed. -/
structure Wrapping where
  parts : List (List Char)
  line : List Char
  blanks : List Char
  word : List Char
  inWord : Bool

namespace Wrapping

def start : Wrapping := ⟨[], [], [], [], false⟩

def settle (w : Wrapping) : Wrapping :=
  { w with line := w.line ++ w.blanks ++ w.word, blanks := [], word := [] }

def push (c : Char) (w : Wrapping) : Wrapping :=
  if isBreak c then { w with blanks := w.blanks ++ [c], inWord := false }
  else { w with word := w.word ++ [c], inWord := true }

def breakLine (limit : Nat) (w : Wrapping) : Wrapping :=
  { w with
    parts := w.line :: w.parts
    line := []
    blanks := w.blanks.drop (limit - width w.line) }

/-- A character that takes a column is one too many when line, blanks and word fill the limit; one
that takes none only when the line does so by itself. -/
def isFull (limit : Nat) (w : Wrapping) (c : Char) : Bool :=
  limit ≤ width w.line ||
    (0 < columns c && limit ≤ width w.line + width w.blanks + width w.word)

def next (limit : Nat) (w : Wrapping) (c : Char) : Wrapping :=
  let wordEnds := w.inWord && isBreak c
  let tooWide := w.line.isEmpty && limit < width w.word + width w.blanks + columns c
  let w := if wordEnds || tooWide then w.settle else w
  if w.isFull limit c then
    let w := w.breakLine limit
    if isBreak c && w.blanks.isEmpty then w else w.push c
  else w.push c

def finish (w : Wrapping) : List (List Char) :=
  let parts :=
    if w.line.isEmpty && w.word.isEmpty && !w.blanks.isEmpty then [] :: w.parts else w.parts
  let line := w.settle.line
  (if line.isEmpty then parts else line :: parts).reverse

end Wrapping

def wrap (limit : Nat) (line : List Char) : List (List Char) :=
  (line.foldl (Wrapping.next limit) .start).finish

end TickMachine.Text
