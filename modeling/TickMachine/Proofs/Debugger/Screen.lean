import TickMachine.Proofs.Debugger.Layout
import TickMachine.Proofs.Debugger.Listing
import TickMachine.Proofs.Image.Listing

/-! What the debugger's screen shows of a state. A row of the program or of the data memory is told
by its address, so that the row of the current instruction and that of the selected cell are the
only ones of their kind. -/

namespace TickMachine.Debugger

open Screen Text

variable {d : Debugger} {size : Size} {w cell : Word} {row : Row} {c : Char}
  {address k y x : Nat}

/-! ### The program -/

def BreaksAt (d : Debugger) (address : Nat) : Prop := ∃ b ∈ d.breakpoints, b.toNat = address

instance (d : Debugger) (address : Nat) : Decidable (d.BreaksAt address) :=
  inferInstanceAs (Decidable (∃ b ∈ d.breakpoints, b.toNat = address))

def programText (d : Debugger) (address : Nat) (w : Word) : List Char :=
  (if d.BreaksAt address then '●' else ' ') :: ' ' ::
    (if address = d.counter.toNat then '▶' else ' ') :: ' ' :: Image.codeText address w

theorem programLine_eq (d : Debugger) (address : Nat) (w : Word) :
    d.programLine (d.listingRow address w) =
      inStyle (programStyle (decide (address = d.counter.toNat)) (decide (d.BreaksAt address)))
        (d.programText address w) := by
  have hbreaks : (d.breakpoints.any fun b => b.toNat == address) = decide (d.BreaksAt address) := by
    rw [Bool.eq_iff_iff, List.any_eq_true, decide_eq_true_eq]
    simp only [BreaksAt, beq_iff_eq]
  have hmark : (if d.BreaksAt address then "●" else " ").toList =
      [if d.BreaksAt address then '●' else ' '] := by split <;> rfl
  have hpointer : (if address = d.counter.toNat then "▶ " else "  ").toList =
      [if address = d.counter.toNat then '▶' else ' ', ' '] := by split <;> rfl
  simp only [programLine, listingRow, hbreaks, uniform_eq, decide_eq_true_eq,
    String.toList_append, hmark, hpointer]
  simp [programText, Image.codeText]

theorem notMem_codeText (h : 128 ≤ c.toNat) : c ∉ Image.codeText address w := by
  intro hc
  have hascii : c.toNat < 128 := by
    rcases List.mem_append.1 hc with hc | hc
    · exact Assembly.toNat_lt_of_isDigit (Image.isDigit_of_mem_zeroPadded hc)
    · rcases List.mem_cons.1 hc with rfl | hc
      · decide
      · rcases List.mem_cons.1 hc with rfl | hc
        · decide
        · exact Assembly.toNat_lt_of_mem_assembly hc
  omega

theorem getElem?_programText (hc : 128 ≤ c.toNat) :
    (fitted (size.left - 2) (d.programText address w))[x]? = some c ↔
      x = 0 ∧ d.BreaksAt address ∧ c = '●' ∨ x = 2 ∧ address = d.counter.toNat ∧ c = '▶' := by
  obtain ⟨-, hleft, -⟩ := size.room
  have hwidth : size.left - 2 = size.left - 6 + 4 := by omega
  have hblank : ' ' ≠ c := by
    rintro rfl
    revert hc
    decide
  have hrest : c ∉ fitted (size.left - 6) (Image.codeText address w) :=
    notMem_fitted hblank.symm (notMem_codeText hc)
  -- The marks stand in the first four columns, whatever is cut off behind them.
  rw [programText, hwidth, fitted_cons, fitted_cons, fitted_cons, fitted_cons]
  match x with
  | 0 => by_cases h : d.BreaksAt address <;> simp [h, hblank.symm, eq_comm]
  | 1 => simp [hblank]
  | 2 => by_cases h : address = d.counter.toNat <;> simp [h, hblank.symm, eq_comm]
  | 3 => simp [hblank]
  | x + 4 =>
    have hnone : (fitted (size.left - 6) (Image.codeText address w))[x]? ≠ some c :=
      fun h => hrest (List.mem_of_getElem? h)
    simpa using hnone

def addressOf (d : Debugger) (size : Size) (k : Nat) : Nat :=
  d.firstListed (size.height - 12) + k

theorem program_row_eq (h : (d.insideOf size .program)[k]? = some row) :
    row = ((d.machine.program[d.addressOf size k]?.map fun w =>
      d.programLine (d.listingRow (d.addressOf size k) w)).getD ⟨[], .plain⟩).fit
        (size.left - 2) := by
  obtain ⟨hk, rfl⟩ := insideOf_row h
  have hrows : k < size.height - 10 - 2 := hk
  have hlines : (d.panel size .program).lines[k]? =
      d.machine.program[d.addressOf size k]?.map fun w =>
        d.programLine (d.listingRow (d.addressOf size k) w) := by
    show ((d.listing (size.height - 12)).map d.programLine)[k]? = _
    rw [List.getElem?_map, getElem?_listing (by omega), Option.map_map]
    rfl
  rw [hlines]
  rfl

theorem program_row (hrow : (d.insideOf size .program)[k]? = some row)
    (hw : d.machine.program[d.addressOf size k]? = some w) :
    row = (inStyle (programStyle (decide (d.addressOf size k = d.counter.toNat))
      (decide (d.BreaksAt (d.addressOf size k)))) (d.programText (d.addressOf size k) w)).fit
        (size.left - 2) := by
  rw [program_row_eq hrow, hw, Option.map_some, Option.getD_some, programLine_eq]

theorem program_row_blank (hrow : (d.insideOf size .program)[k]? = some row)
    (hend : d.machine.program.size ≤ d.addressOf size k) :
    row = List.replicate (size.left - 2) ⟨' ', .plain⟩ := by
  rw [program_row_eq hrow, Array.getElem?_eq_none hend, Option.map_none, Option.getD_none, fit_nil]

/-- The program panel shows the program from an address above the current one on, with marks in
front of the current instruction and of those with a breakpoint. -/
structure ShowsProgram (d : Debugger) (size : Size) : Prop where
  text : ∀ {k row w}, (d.insideOf size .program)[k]? = some row →
    d.machine.program[d.addressOf size k]? = some w →
      chars row = fitted (size.left - 2) (d.programText (d.addressOf size k) w)
  blank : ∀ {k row}, (d.insideOf size .program)[k]? = some row →
    d.machine.program.size ≤ d.addressOf size k →
      row = List.replicate (size.left - 2) ⟨' ', .plain⟩
  current : d.counter.toNat < d.machine.program.size → ∃ k row,
    (d.insideOf size .program)[k]? = some row ∧ d.addressOf size k = d.counter.toNat ∧
      (∀ cell ∈ row, cell.style = ⟨.yellow, true⟩) ∧
      ∀ {j other}, (d.insideOf size .program)[j]? = some other →
        ('▶' ∈ chars other ↔ j = k)
  other : ∀ {k row}, (d.insideOf size .program)[k]? = some row →
    d.addressOf size k < d.machine.program.size → d.addressOf size k ≠ d.counter.toNat →
      ∀ cell ∈ row, cell.style =
        if d.BreaksAt (d.addressOf size k) then .colored .red else .plain
  breakpoint : ∀ {k row x}, (d.insideOf size .program)[k]? = some row →
    ((chars row)[x]? = some '●' ↔ x = 0 ∧ d.addressOf size k < d.machine.program.size ∧
      d.BreaksAt (d.addressOf size k))

theorem mark_iff (hrow : (d.insideOf size .program)[k]? = some row) (hc : 128 ≤ c.toNat) :
    (chars row)[x]? = some c ↔ d.addressOf size k < d.machine.program.size ∧
      (x = 0 ∧ d.BreaksAt (d.addressOf size k) ∧ c = '●' ∨
        x = 2 ∧ d.addressOf size k = d.counter.toNat ∧ c = '▶') := by
  by_cases hlt : d.addressOf size k < d.machine.program.size
  · rw [program_row hrow (Array.getElem?_eq_getElem hlt), chars_fit, getElem?_programText hc]
    exact (and_iff_right hlt).symm
  · refine iff_of_false (fun h => ?_) fun h => hlt h.1
    rw [program_row_blank hrow (Nat.not_lt.1 hlt), chars, List.map_replicate] at h
    have heq := List.eq_of_mem_replicate (List.mem_of_getElem? h)
    rw [heq] at hc
    revert hc
    decide

theorem exists_addressOf (d : Debugger) (size : Size) :
    ∃ k < size.height - 12, d.addressOf size k = d.counter.toNat := by
  obtain ⟨hheight, -, -⟩ := size.room
  exact ⟨_, by omega, d.firstListed_add (size.height - 12)⟩

theorem showsProgram (d : Debugger) (size : Size) : d.ShowsProgram size where
  text := by
    intro k row w hrow hw
    rw [program_row hrow hw, chars_fit]
  blank := program_row_blank
  current := by
    intro hcurrent
    obtain ⟨k, hk, haddress⟩ := d.exists_addressOf size
    have hroom : k < size.height - 10 - 2 := by omega
    obtain ⟨row, hrow⟩ := exists_row d size .program hroom
    refine ⟨k, row, hrow, haddress, ?_, fun {j other} hother => ?_⟩
    · intro cell hcell
      rw [← haddress] at hcurrent
      rw [program_row hrow (Array.getElem?_eq_getElem hcurrent)] at hcell
      rw [style_of_mem_fit hcell, decide_eq_true haddress]
      rfl
    · have hsame : d.addressOf size j = d.counter.toNat ↔ j = k := by
        rw [← haddress, addressOf, addressOf, Nat.add_left_cancel_iff]
      constructor
      · intro hmem
        obtain ⟨x, hx⟩ := List.mem_iff_getElem?.1 hmem
        obtain ⟨-, ⟨-, -, hne⟩ | ⟨-, hj, -⟩⟩ := (mark_iff hother (by decide)).1 hx
        · exact absurd hne (by decide)
        · exact hsame.1 hj
      · intro hj
        have haddress := hsame.2 hj
        exact List.mem_of_getElem?
          ((mark_iff hother (by decide)).2 ⟨by omega, .inr ⟨rfl, haddress, rfl⟩⟩)
  other := by
    intro k row hrow hlt hother cell hcell
    rw [program_row hrow (Array.getElem?_eq_getElem hlt)] at hcell
    rw [style_of_mem_fit hcell, decide_eq_false hother]
    simp [programStyle]
  breakpoint := by
    intro k row x hrow
    rw [mark_iff hrow (by decide)]
    constructor
    · rintro ⟨hlt, ⟨hx, hbreak, -⟩ | ⟨-, -, hne⟩⟩
      · exact ⟨hx, hlt, hbreak⟩
      · exact absurd hne (by decide)
    · rintro ⟨hx, hlt, hbreak⟩
      exact ⟨hlt, .inl ⟨hx, hbreak, rfl⟩⟩

/-! ### The data memory -/

def slice? {α : Type} (l : List α) (start stop : Nat) : Option (List α) :=
  if start ≤ stop ∧ stop ≤ l.length then some ((l.drop start).take (stop - start)) else none

def firstCell (d : Debugger) : Nat := min d.scroll d.machine.path.cells.size

def cellText (address : Nat) (cell : Word) : List Char :=
  (zeroPadded 3 address).toList ++ ':' :: ' ' :: ((padRight 7 cell.opcode.mnemonic).toList ++
    ' ' :: (toString cell.value.toInt).toList)

theorem slice?_cells (d : Debugger) (rows : Nat) :
    ∃ shown, slice? d.machine.path.cells.toList d.firstCell
        (min (d.firstCell + rows) d.machine.path.cells.size) = some shown ∧
      (d.memoryPanel rows).lines =
        shown.mapIdx fun k cell => cellLine d.machine.path (d.firstCell + k) cell := by
  have hle : d.firstCell ≤ d.machine.path.cells.size := Nat.min_le_right ..
  refine ⟨_, if_pos ⟨by omega, by rw [Array.length_toList]; omega⟩, ?_⟩
  have htake : (d.machine.path.cells.toList.drop d.firstCell).take rows =
      (d.machine.path.cells.toList.drop d.firstCell).take
        (min (d.firstCell + rows) d.machine.path.cells.size - d.firstCell) := by
    rw [List.take_eq_take_iff, List.length_drop, Array.length_toList]
    omega
  rw [← htake]
  rfl

theorem cellLine_eq (path : DataPath) (address : Nat) (cell : Word) :
    cellLine path address cell =
      inStyle (cellStyle (path.address.toInt = address) cell.value) (cellText address cell) := by
  rw [cellLine, uniform_eq]
  simp [cellText]

theorem memory_row_eq (h : (d.insideOf size .memory)[k]? = some row) :
    row = ((d.machine.path.cells[d.firstCell + k]?.map
      (cellLine d.machine.path (d.firstCell + k))).getD ⟨[], .plain⟩).fit (size.right - 2) := by
  obtain ⟨hk, rfl⟩ := insideOf_row h
  have hrows : k < size.height - 9 - 2 := hk
  have hlines : (d.panel size .memory).lines[k]? =
      d.machine.path.cells[d.firstCell + k]?.map
        (cellLine d.machine.path (d.firstCell + k)) := by
    show (((d.machine.path.cells.toList.drop d.firstCell).take (size.height - 11)).mapIdx
      fun i cell => cellLine d.machine.path (d.firstCell + i) cell)[k]? = _
    rw [List.getElem?_mapIdx, List.getElem?_take_of_lt (by omega), List.getElem?_drop,
      Array.getElem?_toList]
  rw [hlines]
  rfl

theorem memory_row (hrow : (d.insideOf size .memory)[k]? = some row)
    (hcell : d.machine.path.cells[d.firstCell + k]? = some cell) :
    row = (inStyle (cellStyle (d.machine.path.address.toInt = (d.firstCell + k : Nat)) cell.value)
      (cellText (d.firstCell + k) cell)).fit (size.right - 2) := by
  rw [memory_row_eq hrow, hcell, Option.map_some, Option.getD_some, cellLine_eq]

theorem memory_row_blank (hrow : (d.insideOf size .memory)[k]? = some row)
    (hend : d.machine.path.cells.size ≤ d.firstCell + k) :
    row = List.replicate (size.right - 2) ⟨' ', .plain⟩ := by
  rw [memory_row_eq hrow, Array.getElem?_eq_none hend, Option.map_none, Option.getD_none, fit_nil]

/-- The memory panel shows the cells from the scrolled one on, and among them the one that the
address latch holds. -/
structure ShowsMemory (d : Debugger) (size : Size) : Prop where
  text : ∀ {k row cell}, (d.insideOf size .memory)[k]? = some row →
    d.machine.path.cells[d.firstCell + k]? = some cell →
      chars row = fitted (size.right - 2) (cellText (d.firstCell + k) cell)
  blank : ∀ {k row}, (d.insideOf size .memory)[k]? = some row →
    d.machine.path.cells.size ≤ d.firstCell + k →
      row = List.replicate (size.right - 2) ⟨' ', .plain⟩
  selected : ∀ {k row}, (d.insideOf size .memory)[k]? = some row → ∀ cell ∈ row,
    (cell.style = ⟨.yellow, true⟩ ↔ d.firstCell + k < d.machine.path.cells.size ∧
      d.machine.path.address.toInt = d.firstCell + k)
  present : (∃ row ∈ d.insideOf size .memory, ∃ cell ∈ row, cell.style = ⟨.yellow, true⟩) ↔
    ∃ k < size.height - 11, d.firstCell + k < d.machine.path.cells.size ∧
      d.machine.path.address.toInt = d.firstCell + k

theorem cellStyle_eq_iff {isSelected : Bool} {value : Int64} :
    cellStyle isSelected value = ⟨.yellow, true⟩ ↔ isSelected := by
  rw [cellStyle]
  cases isSelected with
  | true => exact iff_of_true rfl rfl
  | false =>
    show (if value ≠ 0 then Style.colored .white else .colored .darkGray) = _ ↔ _
    split <;> exact iff_of_false (by decide) (by decide)

theorem selected_iff (hrow : (d.insideOf size .memory)[k]? = some row) {shown : Cell}
    (hmem : shown ∈ row) : shown.style = ⟨.yellow, true⟩ ↔
      d.firstCell + k < d.machine.path.cells.size ∧
        d.machine.path.address.toInt = d.firstCell + k := by
  by_cases hlt : d.firstCell + k < d.machine.path.cells.size
  · rw [memory_row hrow (Array.getElem?_eq_getElem hlt)] at hmem
    rw [style_of_mem_fit hmem, cellStyle_eq_iff, decide_eq_true_eq]
    push_cast
    exact (and_iff_right hlt).symm
  · rw [memory_row_blank hrow (Nat.not_lt.1 hlt)] at hmem
    rw [List.eq_of_mem_replicate hmem]
    exact iff_of_false (by decide) fun h => hlt h.1

theorem showsMemory (d : Debugger) (size : Size) : d.ShowsMemory size where
  text := by
    intro k row cell hrow hcell
    rw [memory_row hrow hcell, chars_fit]
  blank := memory_row_blank
  selected := fun hrow _ => selected_iff hrow
  present := by
    obtain ⟨-, -, hright⟩ := size.room
    have hheight : (Pane.memory.area size).height - 2 = size.height - 11 :=
      Nat.sub_sub size.height 9 2
    constructor
    · rintro ⟨row, hrow, cell, hcell, hstyle⟩
      obtain ⟨k, hk⟩ := List.mem_iff_getElem?.1 hrow
      exact ⟨k, hheight ▸ (insideOf_row hk).1, (selected_iff hk hcell).1 hstyle⟩
    · rintro ⟨k, hk, hselected⟩
      obtain ⟨row, hrow⟩ := exists_row d size .memory (hheight.symm ▸ hk)
      have hlength : row.length = size.right - 2 := length_mem_insideOf (List.mem_of_getElem? hrow)
      obtain ⟨cell, hcell⟩ := List.exists_mem_of_length_pos (by omega : 0 < row.length)
      exact ⟨row, List.mem_of_getElem? hrow, cell, hcell, (selected_iff hrow hcell).2 hselected⟩

/-! ### The whole screen -/

/-- The screen has all its cells, and no cell of the data memory is asked for that is not there. -/
structure IsWhole (d : Debugger) (size : Size) : Prop where
  height : (d.screen size).length = size.height
  width : ∀ row ∈ d.screen size, row.length = size.width
  cells : ∃ shown, slice? d.machine.path.cells.toList d.firstCell
      (min (d.firstCell + (size.height - 11)) d.machine.path.cells.size) = some shown ∧
    (d.panel size .memory).lines =
      shown.mapIdx fun k cell => cellLine d.machine.path (d.firstCell + k) cell

structure SameFrame (d d' : Debugger) (size : Size) : Prop where
  edge : ∀ {pane : Pane} {y x}, (pane.area size).Edge y x →
    d.Shared d' size ((pane.area size).top + y) ((pane.area size).left + x)
  help : ∀ {y x}, y < (Pane.help.area size).height → x < (Pane.help.area size).width →
    d.Shared d' size ((Pane.help.area size).top + y) ((Pane.help.area size).left + x)

end TickMachine.Debugger
