/-! Text set into columns of a given width, counted in characters. -/

namespace TickMachine.Text

def fill (c : Char) (count : Nat) : String := String.ofList (List.replicate count c)

def padLeft (width : Nat) (text : String) : String := fill ' ' (width - text.length) ++ text

def padRight (width : Nat) (text : String) : String := text ++ fill ' ' (width - text.length)

def center (c : Char) (width : Nat) (text : String) : String :=
  let missing := width - text.length
  fill c (missing / 2) ++ text ++ fill c (missing - missing / 2)

def cut (width : Nat) (text : String) : String := String.ofList (text.toList.take width)

def zeroPadded (width n : Nat) : String :=
  let digits := toString n
  fill '0' (width - digits.length) ++ digits

end TickMachine.Text
