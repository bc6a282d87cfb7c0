import TickMachine.Machine.Load
import TickMachine.Proofs.Assembly.Shape
import TickMachine.Proofs.Machine.Failure
import TickMachine.Proofs.Machine.Reach

/-! What cannot go wrong in a translated program, however long it runs. Its words have the shape
that the micro-programs expect, so a fault is about a value and never about the shape of a word. -/

namespace TickMachine.Machine

open DataPath Assembly

/-- The faults that `m`, with its number of registers, can end in if its words are shaped. -/
def Fault.IsAboutValue (m : Machine) (registers : Nat) : Fault → Prop
  | .notAnInstruction _ _ | .path .noRegisters | .path (.noRule _ _) | .path (.noPhase _ _ _)
  | .path (.missingOperand _ _ _) => False
  | .path (.registerOutOfRange register count) => count = registers ∧
    (register.toInt < 0 ∨ registers ≤ register.toInt) ∧
    ∃ w position, m.current? = some w ∧ w.opcode.signature[position]? = some .register ∧
      w.arg? position = some register
  | .counterOutOfRange _ _ | .badJumpTarget _ _ | .path (.addressOutOfRange _ _)
  | .path .endOfInput | .path (.alu _) => True

variable {m m' : Machine} {w : Word} {fault : Fault} {image : Image} {source : List Char}
  {registers : Nat}

theorem isAboutValue_of_tells (hw : m.current? = some w) (hshape : w.IsShaped)
    (h : fault.Tells w m') : fault.IsAboutValue m m'.path.registers.size := by
  obtain ⟨hdata, hlen⟩ := hshape
  match fault with
  | .counterOutOfRange _ _ => trivial
  | .badJumpTarget _ _ => trivial
  | .notAnInstruction _ _ =>
    rw [Fault.Tells, hdata] at h
    cases h
  | .path .noRegisters => exact h
  | .path (.noRule _ _) => exact h
  | .path (.noPhase _ _ _) => exact h
  | .path (.missingOperand _ _ position) =>
    obtain ⟨hlt, hnone⟩ := h
    rw [← hlen] at hlt
    rw [Word.arg?, List.getElem?_eq_none_iff] at hnone
    exact absurd hlt (Nat.not_lt.2 hnone)
  | .path (.registerOutOfRange r count) =>
    obtain ⟨⟨position, hkind, harg⟩, hcount, hnone⟩ := h
    rw [hcount, place?_eq_none_iff] at hnone
    exact ⟨hcount, hnone, w, position, hw, hkind, harg⟩
  | .path (.addressOutOfRange _ _) => trivial
  | .path .endOfInput => trivial
  | .path (.alu _) => trivial

theorem step_isAboutValue (hm : ∀ w ∈ m.program.toList, w.IsShaped)
    (h : step m = .error fault m') : fault.IsAboutValue m m'.path.registers.size := by
  obtain ⟨-, rfl⟩ | ⟨w, hw, htells⟩ := step_tells h
  · trivial
  · exact isAboutValue_of_tells hw (hm w (mem_of_current? hw)) htells

theorem step_counter_fault (ht : TargetsInside m.program.toList)
    (hc : m.counter.toNat ≤ m.program.size) (h : step m = .error fault m') :
    (∀ index target, fault ≠ .badJumpTarget index target) ∧
      ∀ counter length, fault = .counterOutOfRange counter length →
        counter.toNat = m.program.size := by
  obtain ⟨hnone, rfl⟩ | ⟨w, hw, htells⟩ := step_tells h
  · refine ⟨nofun, fun counter length hf => ?_⟩
    obtain ⟨rfl, -⟩ := Fault.counterOutOfRange.inj hf
    rw [current?, Array.getElem?_eq_none_iff] at hnone
    omega
  · refine ⟨?_, ?_⟩
    · rintro index target rfl
      obtain ⟨hjump, harg, hneg⟩ := htells
      have hle := (ht w (mem_of_current? hw) hjump target harg).1
      omega
    · rintro counter length rfl
      cases htells

theorem label_le {l : Layout} {x : List Char × Int64} (hl : l.code.IsSound)
    (hx : x ∈ l.code.labels) (hlen : l.code.drafts.length ≤ Int64.maxValue.toInt) :
    0 ≤ x.2.toInt ∧ x.2.toInt ≤ l.code.drafts.length := by
  have hmax := Int64.maxValue.toInt_lt
  obtain ⟨n, hn, hv⟩ := hl.labels x hx
  rw [hv, Int64.toInt_ofNat_of_lt (by omega)]
  omega

/-- A translated program can be loaded into any number of registers and run for any number of steps,
and its faults are about values. If all its jumps stay inside the code, as all labels do, so does
the counter. -/
theorem translated_run_isAboutValue (hi : translate source = .ok image) (hn : 1 ≤ registers)
    (input : List Char) :
    ∃ m, load? image registers input = .ok m ∧
      (∀ k fault m', step (m.afterSteps k) = .error fault m' →
        fault.IsAboutValue (m.afterSteps k) registers) ∧
      (TargetsInside image.code →
        (∀ k, (m.afterSteps k).counter.toNat ≤ image.code.length) ∧
        ∀ k fault m', step (m.afterSteps k) = .error fault m' →
          (∀ index target, fault ≠ .badJumpTarget index target) ∧
          ∀ counter length, fault = .counterOutOfRange counter length →
            counter.toNat = image.code.length) ∧
      (image.code.length ≤ Int64.maxValue.toInt → ∃ l, layout (statements source) = .ok l ∧
        ∀ x ∈ l.code.labels, 0 ≤ x.2.toInt ∧ x.2.toInt ≤ image.code.length) := by
  obtain ⟨l, hl, hsound, hlen, hshape⟩ := translate_eq_ok hi
  have hkeep := afterSteps_keep (m := load image registers input)
  refine ⟨load image registers input, if_neg (by omega), ?_, fun ht => ⟨?_, ?_⟩, fun hfits => ?_⟩
  · intro k fault m' h
    have hfault := step_isAboutValue (by rw [(hkeep k).1]; exact hshape) h
    have hsize := (hkeep (k + 1)).2
    rw [afterSteps, next_of_error h] at hsize
    rw [hsize] at hfault
    have hcount : (load image registers input).path.registers.size = registers :=
      Array.size_replicate
    rwa [hcount] at hfault
  · exact afterSteps_counter_le (m := load image registers input) ht (Nat.zero_le _)
  · intro k fault m' h
    have hc := afterSteps_counter_le (m := load image registers input) ht (Nat.zero_le _) k
    rw [← (hkeep k).1] at hc
    have hfault := step_counter_fault (by rw [(hkeep k).1]; exact ht) hc h
    rwa [(hkeep k).1] at hfault
  · rw [hlen] at hfits ⊢
    exact ⟨l, hl, fun x hx => label_le hsound hx hfits⟩

theorem translated_run_jmp_end :
    ∃ m, load? ⟨Layout.start.data.cells, [⟨0, .jmp, [1]⟩]⟩ 1 [] = .ok m ∧
      ∀ k, (m.afterSteps k).counter.toNat ≤ 1 := by
  have hi : translate ".code\njmp e\ne:".toList =
      .ok ⟨Layout.start.data.cells, [⟨0, .jmp, [1]⟩]⟩ := rfl
  obtain ⟨m, hm, -, hin, -⟩ := translated_run_isAboutValue hi (Nat.le_refl 1) []
  refine ⟨m, hm, (hin ?_).1⟩
  unfold TargetsInside
  simp [Word.arg?]

end TickMachine.Machine
