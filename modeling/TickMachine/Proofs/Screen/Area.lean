import TickMachine.Screen.Panel

/-! Rectangles of a screen. Of blocks that stand side by side, and one below the other, each can be
cut out again as it was, and what is inside the border of a panel are its lines. -/

namespace TickMachine.Screen

structure Area where
  top : Nat
  left : Nat
  height : Nat
  width : Nat

namespace Area

def cut (a : Area) (rows : List Row) : List Row :=
  ((rows.drop a.top).take a.height).map fun row => (row.drop a.left).take a.width

def inner (a : Area) : Area := ⟨a.top + 1, a.left + 1, a.height - 2, a.width - 2⟩

structure Edge (a : Area) (y x : Nat) : Prop where
  row : y < a.height
  column : x < a.width
  edge : y = 0 ∨ y + 1 = a.height ∨ x = 0 ∨ x + 1 = a.width

end Area

def cell? (rows : List Row) (y x : Nat) : Option Cell := rows[y]?.bind fun row => row[x]?

variable {a : Area} {rows left right : List Row} {y x l r t k width height : Nat} {p p' : Panel}

theorem cell?_cut (hy : y < a.height) (hx : x < a.width) :
    cell? (a.cut rows) y x = cell? rows (a.top + y) (a.left + x) := by
  simp only [cell?, Area.cut, List.getElem?_map, List.getElem?_take_of_lt hy, List.getElem?_drop,
    Option.bind_map, Function.comp_def, List.getElem?_take_of_lt hx]

theorem cut_inner (a : Area) (rows : List Row) :
    a.inner.cut rows = Area.cut ⟨1, 1, a.height - 2, a.width - 2⟩ (a.cut rows) := by
  have hrow (row : Row) : (row.drop (a.left + 1)).take (a.width - 2) =
      (((row.drop a.left).take a.width).drop 1).take (a.width - 2) := by
    rw [List.drop_take, List.take_take, List.drop_drop]
    congr 1
    omega
  have hrows : (rows.drop (a.top + 1)).take (a.height - 2) =
      (((rows.drop a.top).take a.height).drop 1).take (a.height - 2) := by
    rw [List.drop_take, List.take_take, List.drop_drop]
    congr 1
    omega
  rw [Area.cut, Area.inner, Area.cut, Area.cut, ← List.map_drop, ← List.map_take, ← hrows,
    List.map_map]
  exact List.map_congr_left fun row _ => hrow row

/-! ### Blocks side by side -/

theorem cut_left (hleft : ∀ row ∈ left, row.length = l) (hle : left.length ≤ right.length) :
    Area.cut ⟨t, 0, k, l⟩ (beside left right) = (left.drop t).take k := by
  have hrows : (beside left right).map (fun row => (row.drop 0).take l) = left := by
    refine List.ext_getElem (by simp [beside]; omega) fun i h h' => ?_
    have hlength := hleft left[i] (List.getElem_mem h')
    simp [beside, ← hlength]
  rw [Area.cut, List.map_take, List.map_drop, hrows]

theorem cut_right (hleft : ∀ row ∈ left, row.length = l) (hright : ∀ row ∈ right, row.length = r)
    (hle : right.length ≤ left.length) :
    Area.cut ⟨t, l, k, r⟩ (beside left right) = (right.drop t).take k := by
  have hrows : (beside left right).map (fun row => (row.drop l).take r) = right := by
    refine List.ext_getElem (by simp [beside]; omega) fun i h h' => ?_
    have hlength := hleft (left[i]) (List.getElem_mem (by omega))
    have hlength' := hright right[i] (List.getElem_mem h')
    simp [beside, ← hlength, ← hlength']
  rw [Area.cut, List.map_take, List.map_drop, hrows]

theorem take_drop_block (above block below : List Row) (hdrop : above.length = t)
    (htake : block.length = k) : ((above ++ (block ++ below)).drop t).take k = block := by
  rw [List.drop_left' hdrop, List.take_left' htake]

theorem length_beside (hle : left.length = right.length) :
    (beside left right).length = left.length := by
  rw [beside, List.length_zipWith, hle, Nat.min_self]

theorem length_row_beside {row : Row} (hleft : ∀ row ∈ left, row.length = l)
    (hright : ∀ row ∈ right, row.length = r) (h : row ∈ beside left right) :
    row.length = l + r := by
  obtain ⟨i, hi, rfl⟩ := List.getElem_of_mem h
  have hboth : i < left.length ∧ i < right.length := by
    simpa [beside, Nat.lt_min] using hi
  have hlength := hleft left[i] (List.getElem_mem hboth.1)
  have hlength' := hright right[i] (List.getElem_mem hboth.2)
  simp [beside, hlength, hlength']

/-! ### Lines -/

section Lines

variable {style : Style} {text : List Char} {cell : Cell} {c : Char}

def chars (row : Row) : List Char := row.map (·.char)

def fitted (width : Nat) (text : List Char) : List Char :=
  text.take width ++ List.replicate (width - text.length) ' '

def inStyle (style : Style) (text : List Char) : Line := ⟨styled style text, style⟩

theorem uniform_eq (style : Style) (text : String) :
    Line.uniform style text = inStyle style text.toList := rfl

theorem style_of_mem_fit (h : cell ∈ (inStyle style text).fit width) : cell.style = style := by
  rcases List.mem_append.1 h with h | h
  · obtain ⟨c, -, rfl⟩ := List.mem_map.1 (List.mem_of_mem_take h)
    rfl
  · rw [List.eq_of_mem_replicate h, inStyle]

theorem chars_fit : chars ((inStyle style text).fit width) = fitted width text := by
  have hshown : ((styled style text).take width).map (·.char) = text.take width := by
    rw [styled, ← List.map_take, List.map_map]
    exact List.map_id _
  rw [chars, Line.fit, inStyle, List.map_append, List.map_replicate, hshown, styled,
    List.length_map, fitted]

theorem fitted_cons (width : Nat) (c : Char) (text : List Char) :
    fitted (width + 1) (c :: text) = c :: fitted width text := by
  simp [fitted]

theorem notMem_fitted (hblank : c ≠ ' ') (h : c ∉ text) : c ∉ fitted width text := by
  intro hc
  rcases List.mem_append.1 hc with hc | hc
  · exact h (List.mem_of_mem_take hc)
  · exact hblank (List.eq_of_mem_replicate hc)

theorem fit_nil (width : Nat) :
    (Line.mk [] style).fit width = List.replicate width ⟨' ', style⟩ := by
  rw [Line.fit, List.take_nil]
  rfl

end Lines

/-! ### Panels -/

namespace Panel

def inside (p : Panel) (width height : Nat) : List Row :=
  (p.lines.take (height - 2) ++
    List.replicate (height - 2 - p.lines.length) (Line.mk [] p.below)).map (Line.fit (width - 2))

theorem length_inside (p : Panel) (width height : Nat) :
    (p.inside width height).length = height - 2 := by
  simp only [inside, List.length_map, List.length_append, List.length_take, List.length_replicate]
  omega

theorem getElem?_inside (h : k < height - 2) : (p.inside width height)[k]? =
    some ((p.lines[k]?.getD ⟨[], p.below⟩).fit (width - 2)) := by
  rw [inside, List.getElem?_map, List.getElem?_append, List.length_take]
  split
  · next hk =>
    have hlines : k < p.lines.length := by omega
    rw [List.getElem?_take_of_lt h, List.getElem?_eq_getElem hlines]
    rfl
  · next hk =>
    have hlines : p.lines.length ≤ k := by omega
    rw [List.getElem?_replicate, if_pos (by omega), List.getElem?_eq_none hlines]
    rfl

def sided (p : Panel) (row : Row) : Row := ⟨'│', p.border⟩ :: (row ++ [⟨'│', p.border⟩])

theorem draw_eq (p : Panel) (width height : Nat) : p.draw width height =
    p.top width :: ((p.inside width height).map p.sided ++ [p.bottom width]) := by
  rw [draw, inside, List.map_map]
  rfl

theorem length_mem_inside {row : Row} (h : row ∈ p.inside width height) :
    row.length = width - 2 := by
  obtain ⟨line, -, rfl⟩ := List.mem_map.1 h
  exact line.length_fit (width - 2)

theorem length_top (h : 2 ≤ width) : (p.top width).length = width := by
  simp only [top, styled, List.length_map, List.length_cons, List.length_append, List.length_take,
    List.length_replicate, List.length_nil, String.length_toList]
  omega

theorem length_bottom (h : 2 ≤ width) : (p.bottom width).length = width := by
  simp only [bottom, styled, List.length_map, List.length_cons, List.length_append,
    List.length_replicate, List.length_nil]
  omega

theorem length_mem_draw (hwidth : 2 ≤ width) {row : Row} (h : row ∈ p.draw width height) :
    row.length = width := by
  rw [draw_eq] at h
  rcases List.mem_cons.1 h with rfl | h
  · exact length_top hwidth
  · rcases List.mem_append.1 h with h | h
    · obtain ⟨row, hrow, rfl⟩ := List.mem_map.1 h
      have hlength := length_mem_inside hrow
      simp only [sided, List.length_cons, List.length_append, List.length_nil]
      omega
    · rw [List.mem_singleton.1 h]
      exact length_bottom hwidth

theorem cut_draw (p : Panel) (width height : Nat) :
    Area.cut ⟨1, 1, height - 2, width - 2⟩ (p.draw width height) = p.inside width height := by
  have hlength := p.length_inside width height
  rw [draw_eq, Area.cut, List.drop_succ_cons, List.drop_zero,
    List.take_append_of_le_length (by simp [hlength]), List.take_of_length_le (by simp [hlength]),
    List.map_map]
  refine (List.map_congr_left fun row hrow => ?_).trans (List.map_id _)
  show (((⟨'│', p.border⟩ :: (row ++ [⟨'│', p.border⟩])).drop 1).take (width - 2)) = row
  rw [List.drop_succ_cons, List.drop_zero]
  exact List.take_left' (length_mem_inside hrow)

theorem getElem?_draw (hk : k < height - 2) :
    (p.draw width height)[k + 1]? = (p.inside width height)[k]?.map p.sided := by
  have hlength := p.length_inside width height
  rw [draw_eq, List.getElem?_cons_succ, List.getElem?_append_left (by simpa [hlength] using hk),
    List.getElem?_map]

theorem getElem?_draw_bottom (p : Panel) (width height : Nat) :
    (p.draw width height)[height - 2 + 1]? = some (p.bottom width) := by
  have hlength := p.length_inside width height
  rw [draw_eq, List.getElem?_cons_succ, List.getElem?_append_right (by simp [hlength])]
  simp [hlength]

theorem getElem?_sided {row : Row} (hrow : row.length = width - 2) (hx : x < width)
    (h : x = 0 ∨ x + 1 = width) : (p.sided row)[x]? = some ⟨'│', p.border⟩ := by
  cases x with
  | zero => rfl
  | succ x =>
    have hend : x = row.length := by omega
    rw [sided, List.getElem?_cons_succ, hend, List.getElem?_append_right (Nat.le_refl _),
      Nat.sub_self]
    rfl

theorem cell?_draw_of_edge (htitle : p.title = p'.title) (hborder : p.border = p'.border)
    (hheight : 2 ≤ a.height) (h : a.Edge y x) :
    cell? (p.draw a.width a.height) y x = cell? (p'.draw a.width a.height) y x := by
  obtain ⟨hy, hx, hedge⟩ := h
  have htop : p.top a.width = p'.top a.width := by rw [top, top, htitle, hborder]
  have hbottom : p.bottom a.width = p'.bottom a.width := by rw [bottom, bottom, hborder]
  cases y with
  | zero => exact congrArg (fun row : Row => row[x]?) htop
  | succ y =>
    by_cases hlast : y + 2 = a.height
    · have hy : y = a.height - 2 := by omega
      rw [cell?, cell?, hy, getElem?_draw_bottom, getElem?_draw_bottom, hbottom]
    · have hy : y < a.height - 2 := by omega
      have hside : x = 0 ∨ x + 1 = a.width := by omega
      have hrow (p : Panel) : cell? (p.draw a.width a.height) (y + 1) x = some ⟨'│', p.border⟩ := by
        have hlength := p.length_inside a.width a.height
        have hmem := List.getElem_mem (hlength ▸ hy)
        rw [cell?, getElem?_draw hy, List.getElem?_eq_getElem (hlength ▸ hy)]
        exact getElem?_sided (length_mem_inside hmem) hx hside
      rw [hrow, hrow, hborder]

end Panel
end TickMachine.Screen
