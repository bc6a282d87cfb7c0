import TickMachine.Assembly.Translate
import TickMachine.Proofs.Except

/-! The shape of what the assembler makes: every word of code is an instruction with as many
arguments as its signature, and every label stands for a place in the code or for its end. -/

namespace TickMachine

def Word.IsShaped (w : Word) : Prop :=
  w.opcode.isData = false ∧ w.args.length = w.opcode.signature.length

instance (w : Word) : Decidable w.IsShaped := inferInstanceAs (Decidable (_ ∧ _))

namespace Assembly

def Draft.IsShaped (d : Draft) : Prop :=
  d.opcode.isData = false ∧ d.operands.length = d.opcode.signature.length

structure CodeLayout.IsSound (l : CodeLayout) : Prop where
  shaped : ∀ d ∈ l.drafts, d.IsShaped
  labels : ∀ x ∈ l.labels, ∃ n ≤ l.drafts.length, x.2 = Int64.ofNat n

variable {line : Nat} {opcode : Opcode} {mnemonic text : List Char} {os : List Operand}
  {register : Operand} {ds : List Draft}

theorem isData_of_instruction? (h : instruction? mnemonic = some opcode) :
    opcode.isData = false := by
  simp [instruction?, Option.filter_eq_some_iff] at h
  exact h.2

theorem single_isShaped (hop : opcode.isData = false) (h : single line opcode os = .ok ds) :
    ∀ d ∈ ds, d.IsShaped := by
  rw [single] at h
  split at h
  · next hlen =>
    obtain rfl := Except.ok.inj h
    intro d hd
    obtain rfl := List.mem_singleton.1 hd
    exact ⟨hop, hlen⟩
  · cases h

theorem furtherTerms_isShaped : ∀ d ∈ furtherTerms line register os, d.IsShaped := by
  fun_induction furtherTerms line register os with
  | case1 factor source rest ih =>
    rw [List.forall_mem_cons]
    exact ⟨⟨rfl, rfl⟩, ih⟩
  | case2 => simp

theorem linearForm_isShaped (h : linearForm line os = .ok ds) : ∀ d ∈ ds, d.IsShaped := by
  rw [linearForm.eq_def] at h
  split at h
  · split at h
    · obtain rfl := Except.ok.inj h
      rw [List.forall_mem_cons]
      exact ⟨⟨rfl, rfl⟩, furtherTerms_isShaped⟩
    · cases h
  · cases h

theorem expand_isShaped (h : expand line mnemonic os = .ok ds) : ∀ d ∈ ds, d.IsShaped := by
  simp only [expand] at h
  split at h
  · exact single_isShaped rfl h
  split at h
  · exact single_isShaped rfl h
  split at h
  · exact linearForm_isShaped h
  split at h
  · next hop => exact single_isShaped (isData_of_instruction? hop) h
  · cases h

theorem CodeLayout.IsSound.place {l l' : CodeLayout} (hl : l.IsSound)
    (h : l.place line text = .ok l') : l'.IsSound := by
  unfold CodeLayout.place at h
  split at h
  · split at h
    · cases h
    · obtain rfl := Except.ok.inj h
      refine ⟨hl.shaped, ?_⟩
      rw [List.forall_mem_cons]
      exact ⟨⟨_, Nat.le_refl _, rfl⟩, hl.labels⟩
  · obtain ⟨ds, hds, h⟩ := except_bind_eq_ok_iff.1 h
    obtain rfl := Except.ok.inj h
    refine ⟨?_, fun x hx => ?_⟩
    · exact List.forall_mem_append.2 ⟨hl.shaped, expand_isShaped hds⟩
    · obtain ⟨n, hn, hx⟩ := hl.labels x hx
      exact ⟨n, by rw [List.length_append]; omega, hx⟩

theorem Layout.place_isSound {l l' : Layout} {s : Statement} (hl : l.code.IsSound)
    (h : l.place s = .ok l') : l'.code.IsSound := by
  rw [Layout.place, mapError_eq_ok_iff] at h
  split at h
  · obtain ⟨data, -, h⟩ := except_bind_eq_ok_iff.1 h
    obtain rfl := Except.ok.inj h
    exact hl
  · obtain ⟨code, hcode, h⟩ := except_bind_eq_ok_iff.1 h
    obtain rfl := Except.ok.inj h
    exact hl.place hcode
  · cases h

theorem layout_isSound {l : Layout} {ss : List Statement} (h : layout ss = .ok l) :
    l.code.IsSound := by
  have hstart : Layout.start.code.IsSound := ⟨nofun, nofun⟩
  exact foldlM_keeps (I := fun l => l.code.IsSound) (fun _ _ _ => Layout.place_isSound) hstart h

theorem Layout.word_isShaped {l : Layout} {index : Nat} {d : Draft} {w : Word} (hd : d.IsShaped)
    (h : l.word index d = .ok w) : w.IsShaped := by
  obtain ⟨args, hargs, h⟩ := except_bind_eq_ok_iff.1 h
  obtain rfl := Except.ok.inj h
  exact ⟨hd.1, (length_of_mapM_eq_ok hargs).trans hd.2⟩

theorem translate_eq_ok {source : List Char} {image : Image} (h : translate source = .ok image) :
    ∃ l, layout (statements source) = .ok l ∧ l.code.IsSound ∧
      image.code.length = l.code.drafts.length ∧ ∀ w ∈ image.code, w.IsShaped := by
  obtain ⟨l, hl, h⟩ := except_bind_eq_ok_iff.1 h
  obtain ⟨code, hcode, h⟩ := except_bind_eq_ok_iff.1 h
  obtain rfl := Except.ok.inj h
  have hsound := layout_isSound hl
  refine ⟨l, hl, hsound, ?_, fun w hw => ?_⟩
  · rw [length_of_mapM_eq_ok hcode, List.length_zipIdx]
  · obtain ⟨⟨d, index⟩, hd, hword⟩ := exists_of_mapM_eq_ok hcode hw
    exact Layout.word_isShaped (hsound.shaped d (List.fst_mem_of_mem_zipIdx hd)) hword

end Assembly
end TickMachine
