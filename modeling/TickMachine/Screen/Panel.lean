/-! Screens of styled characters, put together from bordered panels. A panel of a given size has
exactly that size, whatever it holds. -/

namespace TickMachine.Screen

inductive Color
  | standard | yellow | red | cyan | green | magenta | white | gray | darkGray
  deriving DecidableEq

structure Style where
  color : Color
  bold : Bool
  deriving DecidableEq

def Style.plain : Style := ⟨.standard, false⟩

def Style.colored (color : Color) : Style := ⟨color, false⟩

structure Cell where
  char : Char
  style : Style
  deriving DecidableEq

abbrev Row := List Cell

def styled (style : Style) (text : List Char) : Row := text.map fun c => ⟨c, style⟩

structure Line where
  cells : Row
  rest : Style

def Line.fit (width : Nat) (l : Line) : Row :=
  l.cells.take width ++ List.replicate (width - l.cells.length) ⟨' ', l.rest⟩

theorem Line.length_fit (width : Nat) (l : Line) : (l.fit width).length = width := by
  simp only [fit, List.length_append, List.length_take, List.length_replicate]
  omega

def Line.uniform (style : Style) (text : String) : Line := ⟨styled style text.toList, style⟩

structure Panel where
  title : String
  border : Style
  lines : List Line
  below : Style

namespace Panel

def top (p : Panel) (width : Nat) : Row :=
  styled p.border <|
    '┌' :: ((p.title.toList.take (width - 2) ++
      List.replicate (width - 2 - p.title.length) '─') ++ ['┐'])

def bottom (p : Panel) (width : Nat) : Row :=
  styled p.border ('└' :: (List.replicate (width - 2) '─' ++ ['┘']))

def body (p : Panel) (width : Nat) (l : Line) : Row :=
  ⟨'│', p.border⟩ :: (l.fit (width - 2) ++ [⟨'│', p.border⟩])

def draw (p : Panel) (width height : Nat) : List Row :=
  let shown := p.lines.take (height - 2)
  let missing := List.replicate (height - 2 - p.lines.length) (Line.mk [] p.below)
  p.top width :: ((shown ++ missing).map (p.body width) ++ [p.bottom width])

theorem length_draw (p : Panel) (width : Nat) {height : Nat} (h : 2 ≤ height) :
    (p.draw width height).length = height := by
  simp only [draw, List.length_cons, List.length_append, List.length_map, List.length_take,
    List.length_replicate, List.length_nil]
  omega

end Panel

def beside (left right : List Row) : List Row := List.zipWith (· ++ ·) left right

end TickMachine.Screen
