import TickMachine.Debugger.View
import TickMachine.Proofs.Screen.Area

/-! The layout of the debugger's screen at the sizes that it is for. Every panel has its place,
whatever it shows, so that borders, titles and the help are the same in all states. -/

namespace TickMachine.Debugger

open Screen

/-! ### The layout -/

inductive Size
  | small | medium | large

namespace Size

def width : Size → Nat
  | .small => 80
  | .medium => 100
  | .large => 120

def height : Size → Nat
  | .small => 24
  | .medium => 30
  | .large => 40

def left (size : Size) : Nat := size.width * 3 / 5

def right (size : Size) : Nat := size.width - size.left

theorem room (size : Size) : 24 ≤ size.height ∧ 48 ≤ size.left ∧ 32 ≤ size.right := by
  cases size <;> decide

end Size

inductive Pane
  | program | machine | status | memory | output | help

def Pane.area (size : Size) : Pane → Area
  | .program => ⟨0, 0, size.height - 10, size.left⟩
  | .machine => ⟨size.height - 10, 0, 7, size.left⟩
  | .status => ⟨size.height - 3, 0, 3, size.left⟩
  | .memory => ⟨0, size.left, size.height - 9, size.right⟩
  | .output => ⟨size.height - 9, size.left, 5, size.right⟩
  | .help => ⟨size.height - 4, size.left, 4, size.right⟩

def panel (d : Debugger) (size : Size) : Pane → Panel
  | .program => d.programPanel (size.height - 12)
  | .machine => d.machinePanel
  | .status => d.statusPanel
  | .memory => d.memoryPanel (size.height - 11)
  | .output => d.outputPanel (size.right - 2)
  | .help => helpPanel

def screen (d : Debugger) (size : Size) : List Row := d.draw size.width size.height

def leftSide (d : Debugger) (size : Size) : List Row :=
  (d.panel size .program).draw size.left (size.height - 10) ++
    (d.panel size .machine).draw size.left 7 ++ (d.panel size .status).draw size.left 3

def rightSide (d : Debugger) (size : Size) : List Row :=
  (d.panel size .memory).draw size.right (size.height - 9) ++
    (d.panel size .output).draw size.right 5 ++ (d.panel size .help).draw size.right 4

variable {d d' : Debugger} {size : Size} {pane : Pane} {row : Row} {k x y : Nat}

theorem screen_eq (d : Debugger) (size : Size) :
    d.screen size = beside (d.leftSide size) (d.rightSide size) := rfl

theorem length_leftSide (d : Debugger) (size : Size) : (d.leftSide size).length = size.height := by
  obtain ⟨hheight, -, -⟩ := size.room
  rw [leftSide, List.length_append, List.length_append, Panel.length_draw _ _ (by omega),
    Panel.length_draw _ _ (by decide), Panel.length_draw _ _ (by decide)]
  omega

theorem length_rightSide (d : Debugger) (size : Size) :
    (d.rightSide size).length = size.height := by
  obtain ⟨hheight, -, -⟩ := size.room
  rw [rightSide, List.length_append, List.length_append, Panel.length_draw _ _ (by omega),
    Panel.length_draw _ _ (by decide), Panel.length_draw _ _ (by decide)]
  omega

theorem length_mem_leftSide (h : row ∈ d.leftSide size) : row.length = size.left := by
  obtain ⟨-, hleft, -⟩ := size.room
  have hwidth : 2 ≤ size.left := by omega
  rcases List.mem_append.1 h with h | h
  · rcases List.mem_append.1 h with h | h
    · exact Panel.length_mem_draw hwidth h
    · exact Panel.length_mem_draw hwidth h
  · exact Panel.length_mem_draw hwidth h

theorem length_mem_rightSide (h : row ∈ d.rightSide size) : row.length = size.right := by
  obtain ⟨-, -, hright⟩ := size.room
  have hwidth : 2 ≤ size.right := by omega
  rcases List.mem_append.1 h with h | h
  · rcases List.mem_append.1 h with h | h
    · exact Panel.length_mem_draw hwidth h
    · exact Panel.length_mem_draw hwidth h
  · exact Panel.length_mem_draw hwidth h

theorem length_screen (d : Debugger) (size : Size) : (d.screen size).length = size.height := by
  have hsame := (d.length_leftSide size).trans (d.length_rightSide size).symm
  rw [screen_eq, length_beside hsame, length_leftSide]

theorem length_mem_screen (h : row ∈ d.screen size) : row.length = size.width := by
  have hrow := length_row_beside (fun _ => length_mem_leftSide) (fun _ => length_mem_rightSide) h
  have hsides : size.left + size.right = size.width := by cases size <;> rfl
  rw [hrow, hsides]

theorem cut_screen (d : Debugger) (size : Size) (pane : Pane) :
    (pane.area size).cut (d.screen size) =
      (d.panel size pane).draw (pane.area size).width (pane.area size).height := by
  obtain ⟨hheight, -, -⟩ := size.room
  have hsame := (d.length_leftSide size).trans (d.length_rightSide size).symm
  have hleft (t k : Nat) : Area.cut ⟨t, 0, k, size.left⟩ (d.screen size) =
      ((d.leftSide size).drop t).take k :=
    cut_left (fun _ => length_mem_leftSide) (Nat.le_of_eq hsame)
  have hright (t k : Nat) : Area.cut ⟨t, size.left, k, size.right⟩ (d.screen size) =
      ((d.rightSide size).drop t).take k :=
    cut_right (fun _ => length_mem_leftSide) (fun _ => length_mem_rightSide)
      (Nat.le_of_eq hsame.symm)
  have hpanel (pane : Pane) (width : Nat) {height : Nat} (h : 2 ≤ height) :
      ((d.panel size pane).draw width height).length = height := Panel.length_draw _ width h
  have hprogram := hpanel .program size.left (by omega : 2 ≤ size.height - 10)
  have hmemory := hpanel .memory size.right (by omega : 2 ≤ size.height - 9)
  cases pane with
  | program =>
    refine (hleft _ _).trans ?_
    rw [leftSide, List.append_assoc]
    exact take_drop_block [] _ _ rfl hprogram
  | machine =>
    refine (hleft _ _).trans ?_
    rw [leftSide, List.append_assoc]
    exact take_drop_block _ _ _ hprogram (hpanel .machine size.left (by decide))
  | status =>
    refine (hleft _ _).trans ?_
    have habove := hpanel .machine size.left (by decide : 2 ≤ 7)
    rw [leftSide, ← List.append_nil (Panel.draw _ _ 3)]
    refine take_drop_block _ _ _ ?_ (hpanel .status size.left (by decide))
    rw [List.length_append, hprogram, habove]
    omega
  | memory =>
    refine (hright _ _).trans ?_
    rw [rightSide, List.append_assoc]
    exact take_drop_block [] _ _ rfl hmemory
  | output =>
    refine (hright _ _).trans ?_
    rw [rightSide, List.append_assoc]
    exact take_drop_block _ _ _ hmemory (hpanel .output size.right (by decide))
  | help =>
    refine (hright _ _).trans ?_
    have habove := hpanel .output size.right (by decide : 2 ≤ 5)
    rw [rightSide, ← List.append_nil (Panel.draw _ _ 4)]
    refine take_drop_block _ _ _ ?_ (hpanel .help size.right (by decide))
    rw [List.length_append, hmemory, habove]
    omega

theorem exists_cell (d : Debugger) (hy : y < size.height) (hx : x < size.width) :
    ∃ cell, cell? (d.screen size) y x = some cell := by
  have hy' : y < (d.screen size).length := by rwa [length_screen]
  have hlength := length_mem_screen (List.getElem_mem hy')
  have hx' : x < (d.screen size)[y].length := by rwa [hlength]
  refine ⟨(d.screen size)[y][x], ?_⟩
  rw [cell?, List.getElem?_eq_getElem hy', Option.bind_some, List.getElem?_eq_getElem hx']

theorem area_le (size : Size) (pane : Pane) :
    (pane.area size).top + (pane.area size).height ≤ size.height ∧
      (pane.area size).left + (pane.area size).width ≤ size.width := by
  cases size <;> cases pane <;> decide

theorem two_le_height (size : Size) (pane : Pane) : 2 ≤ (pane.area size).height := by
  cases size <;> cases pane <;> decide

/-- A cell of the screen that two states show alike. -/
def Shared (d d' : Debugger) (size : Size) (y x : Nat) : Prop :=
  ∃ cell, cell? (d.screen size) y x = some cell ∧ cell? (d'.screen size) y x = some cell

theorem shared_of_drawn (d d' : Debugger) (hy : y < (pane.area size).height)
    (hx : x < (pane.area size).width)
    (h : cell? ((d.panel size pane).draw (pane.area size).width (pane.area size).height) y x =
      cell? ((d'.panel size pane).draw (pane.area size).width (pane.area size).height) y x) :
    d.Shared d' size ((pane.area size).top + y) ((pane.area size).left + x) := by
  obtain ⟨hheight, hwidth⟩ := area_le size pane
  obtain ⟨cell, hcell⟩ := d.exists_cell (by omega : (pane.area size).top + y < size.height)
    (by omega : (pane.area size).left + x < size.width)
  refine ⟨cell, hcell, ?_⟩
  rw [← hcell, ← cell?_cut hy hx, ← cell?_cut hy hx, cut_screen, cut_screen, h]

theorem shared_of_edge (d d' : Debugger) (h : (pane.area size).Edge y x) :
    d.Shared d' size ((pane.area size).top + y) ((pane.area size).left + x) := by
  have htitle : (d.panel size pane).title = (d'.panel size pane).title := by cases pane <;> rfl
  have hborder : (d.panel size pane).border = (d'.panel size pane).border := by cases pane <;> rfl
  exact shared_of_drawn d d' h.row h.column
    (Panel.cell?_draw_of_edge htitle hborder (two_le_height size pane) h)

theorem shared_help (d d' : Debugger) (hy : y < (Pane.help.area size).height)
    (hx : x < (Pane.help.area size).width) :
    d.Shared d' size ((Pane.help.area size).top + y) ((Pane.help.area size).left + x) :=
  shared_of_drawn d d' hy hx rfl

def insideOf (d : Debugger) (size : Size) (pane : Pane) : List Row :=
  (pane.area size).inner.cut (d.screen size)

theorem insideOf_eq (d : Debugger) (size : Size) (pane : Pane) : d.insideOf size pane =
    (d.panel size pane).inside (pane.area size).width (pane.area size).height := by
  rw [insideOf, cut_inner, cut_screen, Panel.cut_draw]

theorem length_insideOf (d : Debugger) (size : Size) (pane : Pane) :
    (d.insideOf size pane).length = (pane.area size).height - 2 := by
  rw [insideOf_eq, Panel.length_inside]

theorem exists_row (d : Debugger) (size : Size) (pane : Pane)
    (h : k < (pane.area size).height - 2) :
    ∃ row, (d.insideOf size pane)[k]? = some row :=
  ⟨_, List.getElem?_eq_getElem (d.length_insideOf size pane ▸ h)⟩

theorem length_mem_insideOf (h : row ∈ d.insideOf size pane) :
    row.length = (pane.area size).width - 2 := by
  rw [insideOf_eq] at h
  exact Panel.length_mem_inside h

theorem insideOf_row (h : (d.insideOf size pane)[k]? = some row) :
    k < (pane.area size).height - 2 ∧
      row = ((d.panel size pane).lines[k]?.getD ⟨[], (d.panel size pane).below⟩).fit
        ((pane.area size).width - 2) := by
  have hk := (List.getElem?_eq_some_iff.1 h).1
  rw [length_insideOf] at hk
  rw [insideOf_eq] at h
  exact ⟨hk, Option.some.inj (h.symm.trans (Panel.getElem?_inside hk))⟩

end TickMachine.Debugger
