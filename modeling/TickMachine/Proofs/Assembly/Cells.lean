import TickMachine.Proofs.Assembly.Shape

/-! The data part of what the assembler makes: every cell has a data tag and a value. With the shape
of the code this is what an image is checked for. -/

namespace TickMachine

def Word.IsCell (w : Word) : Prop := w.opcode.isData ∧ w.args ≠ []

namespace Image

variable {w : Word} {image : Image}

theorem checkData_eq_ok_iff : checkData w = .ok () ↔ w.IsCell := by
  rw [checkData, Word.IsCell]
  cases w.opcode.isData <;> by_cases h : w.args = [] <;> simp [h]

theorem checkCode_eq_ok_iff : checkCode w = .ok () ↔ w.opcode.isData = false := by
  rw [checkCode]
  cases w.opcode.isData <;> simp

theorem check_eq_ok_iff : image.check = .ok () ↔
    (∀ w ∈ image.data, w.IsCell) ∧ ∀ w ∈ image.code, w.opcode.isData = false := by
  have hdata : image.data.forM checkData = .ok () ↔ ∀ w ∈ image.data, w.IsCell := by
    simp only [except_forM_eq_ok_iff, checkData_eq_ok_iff]
  have hcode : image.code.forM checkCode = .ok () ↔ ∀ w ∈ image.code, w.opcode.isData = false := by
    simp only [except_forM_eq_ok_iff, checkCode_eq_ok_iff]
  rw [check, except_bind_eq_ok_iff, ← hdata, ← hcode]
  exact ⟨fun ⟨_, h⟩ => h, fun h => ⟨(), h⟩⟩

end Image

namespace Assembly

variable {text : List Char} {kind : Opcode} {values : List Int64}

theorem isData_of_dataKind? (h : dataKind? text = some kind) : kind.isData := by
  simp [dataKind?, Option.filter_eq_some_iff] at h
  exact h.2

theorem cellsFrom_isCell {address : Nat} (h : kind.isData) :
    ∀ w ∈ cellsFrom address kind values, w.IsCell := by
  intro w hw
  obtain ⟨i, hi, rfl⟩ := List.mem_mapIdx.1 hw
  exact ⟨h, List.cons_ne_nil _ _⟩

theorem DataLayout.declare_isCell {l l' : DataLayout} (hl : ∀ w ∈ l.cells, w.IsCell)
    (h : l.declare text = .ok l') : ∀ w ∈ l'.cells, w.IsCell := by
  unfold DataLayout.declare at h
  split at h
  · split at h
    · next d _ kind hkind =>
      split at h
      · cases h
      · obtain ⟨values, -, h⟩ := except_bind_eq_ok_iff.1 h
        obtain rfl := Except.ok.inj h
        exact List.forall_mem_append.2 ⟨hl, cellsFrom_isCell (isData_of_dataKind? hkind)⟩
    · cases h
  · cases h

theorem Layout.place_isCell {l l' : Layout} {s : Statement} (hl : ∀ w ∈ l.data.cells, w.IsCell)
    (h : l.place s = .ok l') : ∀ w ∈ l'.data.cells, w.IsCell := by
  rw [Layout.place, mapError_eq_ok_iff] at h
  split at h
  · obtain ⟨data, hdata, h⟩ := except_bind_eq_ok_iff.1 h
    obtain rfl := Except.ok.inj h
    exact DataLayout.declare_isCell hl hdata
  · obtain ⟨code, -, h⟩ := except_bind_eq_ok_iff.1 h
    obtain rfl := Except.ok.inj h
    exact hl
  · cases h

theorem layout_isCell {l : Layout} {ss : List Statement} (h : layout ss = .ok l) :
    ∀ w ∈ l.data.cells, w.IsCell := by
  have hstart : ∀ w ∈ Layout.start.data.cells, w.IsCell := by
    simp [Layout.start, Word.IsCell, Opcode.isData]
  exact foldlM_keeps (I := fun l => ∀ w ∈ l.data.cells, w.IsCell) (fun _ _ _ => Layout.place_isCell)
    hstart h

theorem check_of_translate {source : List Char} {image : Image}
    (h : translate source = .ok image) : image.check = .ok () := by
  obtain ⟨-, -, -, -, hshape⟩ := translate_eq_ok h
  obtain ⟨l, hl, himage⟩ := except_bind_eq_ok_iff.1 h
  obtain ⟨code, -, himage⟩ := except_bind_eq_ok_iff.1 himage
  obtain rfl := Except.ok.inj himage
  exact Image.check_eq_ok_iff.2 ⟨layout_isCell hl, fun w hw => (hshape w hw).1⟩

end Assembly
end TickMachine
