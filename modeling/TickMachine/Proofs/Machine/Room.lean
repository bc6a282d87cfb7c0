import TickMachine.Proofs.Machine.Flow

/-! Machines with more room: more registers, cells, words or input than another one has. A size is
only ever used to refuse an index, so a step that is not refused is the same with more room. -/

namespace TickMachine

structure Room where
  registers : Nat
  cells : List Word
  words : List Word
  input : List Char

namespace DataPath

def widen (room : Room) (d : DataPath) : DataPath :=
  { d with
    cells := d.cells ++ room.cells.toArray
    registers := d.registers ++ Array.replicate room.registers 0
    input := d.input ++ room.input }

variable {room : Room} {d d' : DataPath} {register address value n : Int64}

theorem place?_mono {size size' i : Nat} (h : place? n size = some i) (hle : size ≤ size') :
    place? n size' = some i := by
  obtain ⟨hn, hlt⟩ := place?_eq_some_iff.1 h
  exact place?_eq_some_iff.2 ⟨hn, Nat.lt_of_lt_of_le hlt hle⟩

theorem fetch?_append {α : Type} {store more : Array α} {v : α} (h : fetch? store n = some v) :
    fetch? (store ++ more) n = some v := by
  cases hplace : place? n store.size with
  | none =>
    rw [fetch?_eq_none_iff.2 hplace] at h
    cases h
  | some i =>
    have hlt : i < store.size := (place?_eq_some_iff.1 hplace).2
    have hwide : place? n (store ++ more).size = some i := place?_mono hplace (by simp)
    rw [fetch?_of_place? hplace] at h
    rw [fetch?_of_place? hwide, Array.getElem?_append_left hlt, h]

theorem modify_append_left {α : Type} {store more : Array α} {i : Nat} {f : α → α}
    (h : i < store.size) : (store ++ more).modify i f = store.modify i f ++ more := by
  apply Array.ext
  · simp only [Array.size_modify, Array.size_append]
  · intro j _ _
    by_cases hj : j < store.size
    · simp only [Array.getElem_modify, Array.getElem_append, Array.size_modify, hj, ↓reduceDIte]
    · have hij : i ≠ j := fun hij => hj (hij ▸ h)
      simp only [Array.getElem_modify, Array.getElem_append, Array.size_modify, hj, hij,
        ↓reduceDIte, ↓reduceIte]

theorem register?_widen (h : d.register? register = some value) :
    (d.widen room).register? register = some value := fetch?_append h

theorem cell?_widen (h : d.cell? address = some value) :
    (d.widen room).cell? address = some value := by
  obtain ⟨cell, hcell, hvalue⟩ := Option.map_eq_some_iff.1 h
  exact Option.map_eq_some_iff.2 ⟨cell, fetch?_append hcell, hvalue⟩

theorem Assigns.widen (h : Assigns register value d d') :
    Assigns register value (d.widen room) (d'.widen room) := by
  obtain ⟨i, hi, rfl⟩ := h
  have hlt : i < d.registers.size := (place?_eq_some_iff.1 hi).2
  refine ⟨i, place?_mono hi (by simp [DataPath.widen]), ?_⟩
  simp only [DataPath.widen, Array.setIfInBounds_append_left hlt]

theorem Stores.widen (h : Stores value d d') : Stores value (d.widen room) (d'.widen room) := by
  obtain ⟨i, hi, rfl⟩ := h
  have hlt : i < d.cells.size := (place?_eq_some_iff.1 hi).2
  refine ⟨i, place?_mono hi (by simp [DataPath.widen]), ?_⟩
  simp only [DataPath.widen, modify_append_left hlt]

end DataPath

open DataPath

theorem Word.Performs.widen {room : Room} {w : Word} {d d' : DataPath} (h : w.Performs d d') :
    w.Performs (d.widen room) (d'.widen room) := by
  unfold Performs at h ⊢
  cases hop : w.opcode <;> simp only [hop] at h ⊢
  case mov =>
    obtain ⟨r, v, hr, hv, hd⟩ := h
    exact ⟨r, v, hr, hv, hd.widen⟩
  case loadV =>
    obtain ⟨r, a, hr, ha, hd⟩ := h
    refine ⟨r, a, hr, ha, ?_⟩
    by_cases h0 : a = 0
    · rw [if_pos h0] at hd ⊢
      obtain ⟨c, rest, hinput, hd⟩ := hd
      exact ⟨c, rest ++ room.input, by rw [DataPath.widen, hinput, List.cons_append], hd.widen⟩
    · rw [if_neg h0] at hd ⊢
      obtain ⟨v, hv, hd⟩ := hd
      exact ⟨v, cell?_widen hv, hd.widen⟩
  case loadR =>
    obtain ⟨r, p, a, v, hr, hp, ha, hv, hd⟩ := h
    exact ⟨r, p, a, v, hr, hp, register?_widen ha, cell?_widen hv, hd.widen⟩
  case storeV =>
    obtain ⟨a, s, v, ha, hs, hv, hd⟩ := h
    refine ⟨a, s, v, ha, hs, register?_widen hv, ?_⟩
    by_cases h1 : a = 1
    · rw [if_pos h1] at hd ⊢
      rw [← hd]
      rfl
    · rw [if_neg h1] at hd ⊢
      exact hd.widen
  case storeR =>
    obtain ⟨p, s, a, v, hp, hs, ha, hv, hd⟩ := h
    exact ⟨p, s, a, v, hp, hs, register?_widen ha, register?_widen hv, hd.widen⟩
  case next =>
    obtain ⟨r, p, a, n, v, d₁, hr, hp, ha, hn, h₁, hv, hd⟩ := h
    exact ⟨r, p, a, n, v, d₁.widen room, hr, hp, register?_widen ha, hn, h₁.widen,
      cell?_widen hv, hd.widen⟩
  case cmp =>
    obtain ⟨r, v, x, hr, hv, hx, rfl⟩ := h
    exact ⟨r, v, x, hr, hv, register?_widen hx, rfl⟩
  case inc =>
    obtain ⟨r, x, n, hr, hx, hn, hd⟩ := h
    exact ⟨r, x, n, hr, register?_widen hx, hn, hd.widen⟩
  case addMmr =>
    obtain ⟨a, b, s, x, y, n, ha, hb, hs, hx, hy, hn, hd⟩ := h
    exact ⟨a, b, s, x, y, n, ha, hb, hs, cell?_widen hx, register?_widen hy, hn, hd.widen⟩
  case modRrv =>
    obtain ⟨r, s, v, x, n, hr, hs, hv, hx, h0, hn, hd⟩ := h
    exact ⟨r, s, v, x, n, hr, hs, hv, register?_widen hx, h0, hn, hd.widen⟩
  case linear =>
    obtain ⟨r, v, s, x, n, hr, hv, hs, hx, hn, hd⟩ := h
    exact ⟨r, v, s, x, n, hr, hv, hs, register?_widen hx, hn, hd.widen⟩
  case linearCont =>
    obtain ⟨r, v, s, x, y, k, n, hr, hv, hs, hx, hy, hk, hn, hd⟩ := h
    exact ⟨r, v, s, x, y, k, n, hr, hv, hs, register?_widen hx, register?_widen hy, hk, hn,
      hd.widen⟩

def Machine.widen (room : Room) (m : Machine) : Machine :=
  { m with
    program := m.program ++ room.words.toArray
    path := m.path.widen room }

theorem Word.Directs.widen {room : Room} {w : Word} {m m' : Machine} (h : w.Directs m m') :
    w.Directs (m.widen room) (m'.widen room) := by
  unfold Directs at h ⊢
  cases hop : w.opcode <;> simp only [hop] at h ⊢
  case jmp =>
    obtain ⟨t, c, ht, hc, rfl⟩ := h
    exact ⟨t, c, ht, hc, rfl⟩
  case jz =>
    obtain ⟨t, c, ht, hc, rfl⟩ := h
    exact ⟨t, c, ht, hc, rfl⟩
  case jzR =>
    obtain ⟨t, c, r, v, ht, hc, hr, hv, rfl⟩ := h
    exact ⟨t, c, r, v, ht, hc, hr, register?_widen hv, rfl⟩

namespace Machine

variable {room : Room} {w : Word} {m m' : Machine} {o : Outcome} {op : Opcode} {fault : Fault}

theorem current?_widen (h : m.current? = some w) : (m.widen room).current? = some w := by
  obtain ⟨hlt, -⟩ := Array.getElem?_eq_some_iff.1 h
  rw [current?] at h
  rw [current?, widen, Array.getElem?_append_left hlt, h]

theorem execute_widen (h : execute w m = .ok o m') :
    execute w (m.widen room) = .ok o (m'.widen room) := by
  cases hp : w.opcode.microProgram? with
  | none =>
    rw [execute_control_eq_ok_iff hp] at h ⊢
    obtain ⟨hop, ho, rfl⟩ | ⟨ho, hrule⟩ := h
    · exact .inl ⟨hop, ho, rfl⟩
    · exact .inr ⟨ho, hrule.widen⟩
  | some steps =>
    rw [execute_eq_ok_iff hp] at h ⊢
    obtain ⟨ho, d, hrule, rfl⟩ := h
    exact ⟨ho, d.widen room, hrule.widen, rfl⟩

theorem step_widen (h : step m = .ok o m') : step (m.widen room) = .ok o (m'.widen room) := by
  obtain ⟨w, hw, hexec⟩ := step_eq_ok_iff.1 h
  exact step_eq_ok_iff.2 ⟨w, current?_widen hw, execute_widen hexec⟩

theorem AwaitsInput.widen (h : m.AwaitsInput) (hroom : room.input = []) :
    (m.widen room).AwaitsInput := by
  obtain ⟨w, r, hw, hop, hr, ha, h0, hlt, hinput⟩ := h
  refine ⟨w, r, current?_widen hw, hop, hr, ha, h0, ?_, ?_⟩
  · simp only [Machine.widen, DataPath.widen, Array.size_append]
    omega
  · simp only [Machine.widen, DataPath.widen, hinput, hroom, List.append_nil]

end Machine
end TickMachine
