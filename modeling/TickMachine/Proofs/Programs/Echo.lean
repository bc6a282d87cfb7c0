import TickMachine.Proofs.Simulation.Printing
import TickMachine.Proofs.Text.Joined

/-! The program that echoes its input up to the terminator. One round of its loop takes a character
from the input port and puts it out again; the run ends at the terminator, or where the input does
if there is none. -/

namespace TickMachine.Echo

open DataPath Machine Simulation

def listing : List String :=
  ["", "        .code", "        loop:", "            input r1", "            jz_r end r1",
    "            output r1", "            jmp loop", "        end:", "            hlt", "    "]

def source : List Char := ("\n".intercalate listing).toList

def code : List Word :=
  [⟨0, .loadV, [0, 0]⟩, ⟨1, .jzR, [4, 0]⟩, ⟨2, .storeV, [1, 0]⟩, ⟨3, .jmp, [0]⟩, ⟨4, .hlt, []⟩]

def image : Image := ⟨Assembly.Layout.start.data.cells, code⟩

theorem translate_source : Assembly.translate source = .ok image := by
  have hlines : Text.lines source = listing.map String.toList := by
    rw [source, String.toList_intercalate]
    exact Text.lines_intercalate (List.cons_ne_nil _ _) (by decide)
  rw [Assembly.translate, Assembly.statements, hlines]
  rfl

structure AtLoop (past pending : List Char) (m : Machine) : Prop where
  program : m.program = code.toArray
  counter : m.counter = 0
  registers : 1 ≤ m.path.registers.size
  input : m.path.input = pending
  output : m.path.output.toList = past.map codeOf

variable {past pending rest text : List Char} {c : Char} {m : Machine}

theorem atLoop_load {registers : Nat} (hr : 1 ≤ registers) (input : List Char) :
    AtLoop [] input (.load image registers input) where
  program := rfl
  counter := rfl
  registers := Nat.le_trans hr (Nat.le_of_eq Array.size_replicate.symm)
  input := rfl
  output := rfl

theorem AtLoop.read (h : AtLoop past (c :: rest) m) : ∃ m', Passes m 2 4 m' ∧
    m'.program = code.toArray ∧ m'.counter = (if c = '\x00' then 4 else 2) ∧
    m'.path.registers.size = m.path.registers.size ∧ m'.path.register? 0 = some (codeOf c) ∧
    m'.path.input = rest ∧ m'.path.output = m.path.output := by
  obtain ⟨program, counter, d, tick⟩ := m
  obtain ⟨rfl, rfl, hsize, hinput, -⟩ := h
  have hplace : place? 0 d.registers.size = some 0 := place?_eq_some_iff.2 ⟨rfl, hsize⟩
  obtain ⟨d₁, hassign⟩ : ∃ d₁, Assigns 0 (codeOf c) { d with address := 0, input := rest } d₁ :=
    ⟨_, 0, hplace, rfl⟩
  have hload : (⟨0, .loadV, [0, 0]⟩ : Word).Performs d d₁ :=
    ⟨0, 0, rfl, rfl, c, rest, hinput, hassign⟩
  have hjump : (⟨1, .jzR, [4, 0]⟩ : Word).Directs ⟨code.toArray, 1, d₁, tick + 2⟩
      ⟨code.toArray, if codeOf c = 0 then 4 else 2, { d₁ with isZero := codeOf c = 0 },
        tick + 2 + 2⟩ := ⟨4, 4, 0, codeOf c, rfl, rfl, rfl, hassign.register?, rfl⟩
  have hrun := ((Passes.refl ⟨code.toArray, 0, d, tick⟩).performs hload rfl rfl).directs hjump rfl
  refine ⟨_, hrun, rfl, ?_, hassign.size, hassign.register?, hassign.input, hassign.output⟩
  simp only [codeOf_eq_zero_iff]

theorem AtLoop.round (hc : c ≠ '\x00') (h : AtLoop past (c :: rest) m) :
    ∃ m', Passes m 4 7 m' ∧ AtLoop (past ++ [c]) rest m' := by
  obtain ⟨m₁, hread, hprogram, hcounter, hsize, hregister, hinput, houtput⟩ := h.read
  rw [if_neg hc] at hcounter
  obtain ⟨program, counter, d, tick⟩ := m₁
  obtain rfl : program = code.toArray := hprogram
  obtain rfl : counter = 2 := hcounter
  have hstore : (⟨2, .storeV, [1, 0]⟩ : Word).Performs d
      { d with address := 1, output := d.output.push (codeOf c) } :=
    ⟨1, 0, codeOf c, rfl, rfl, hregister, rfl⟩
  have hwrite := hread.performs hstore rfl rfl
  have hback := hwrite.directs (w := ⟨3, .jmp, [0]⟩) ⟨0, 0, rfl, rfl, rfl⟩ rfl
  refine ⟨_, hback, rfl, rfl, ?_, hinput, ?_⟩
  · exact hsize.symm ▸ h.registers
  · exact toList_push_codeOf (houtput.symm ▸ h.output)

theorem AtLoop.rounds (htext : '\x00' ∉ text) (h : AtLoop past (text ++ rest) m) :
    ∃ m', Passes m (4 * text.length) (7 * text.length) m' ∧ AtLoop (past ++ text) rest m' :=
  Passes.rounds (fun _ _ _ _ hc => AtLoop.round fun hzero => htext (hzero ▸ hc)) h

theorem AtLoop.awaitsInput (h : AtLoop past [] m) : m.AwaitsInput := by
  obtain ⟨program, counter, d, tick⟩ := m
  obtain ⟨rfl, rfl, hsize, hinput, -⟩ := h
  exact ⟨⟨0, .loadV, [0, 0]⟩, 0, rfl, rfl, rfl, rfl, by decide, Int.ofNat_lt.2 hsize, hinput⟩

def echoed (text : List Char) : List Char := text.takeWhile (· != '\x00')

theorem zero_not_mem_echoed (text : List Char) : '\x00' ∉ echoed text := by
  intro hmem
  have hall := List.all_takeWhile (l := text) (p := (· != '\x00'))
  have hzero := List.all_eq_true.1 hall _ hmem
  cases hzero

theorem terminated_eq (text : List Char) :
    ∃ rest, terminated text = echoed text ++ '\x00' :: rest := by
  induction text with
  | nil => exact ⟨[], rfl⟩
  | cons c text ih =>
    by_cases hc : c = '\x00'
    · exact ⟨text ++ ['\x00'], by rw [hc]; rfl⟩
    · obtain ⟨rest, hrest⟩ := ih
      have hcons : echoed (c :: text) = c :: echoed text :=
        List.takeWhile_cons_of_pos (bne_iff_ne.2 hc)
      exact ⟨rest, by rw [hcons, List.cons_append, ← hrest]; rfl⟩

theorem exists_report_terminated {registers : Nat} (hr : 1 ≤ registers)
    (limit debugLimit : UInt64) (hlimit : 7 * (echoed text).length + 4 < limit.toNat) :
    ∃ r, (simulate image (terminated text) ⟨registers, limit, debugLimit⟩).outcome = .ok r ∧
      r.Records (echoed text) .halted (4 * (echoed text).length + 3)
        (7 * (echoed text).length + 4) := by
  obtain ⟨rest, hinput⟩ := terminated_eq text
  have hload : AtLoop [] (echoed text ++ '\x00' :: rest)
      (.load image registers (terminated text)) := hinput ▸ atLoop_load hr _
  obtain ⟨m₁, hrounds, h₁⟩ := hload.rounds (zero_not_mem_echoed text)
  obtain ⟨m₂, hread, hprogram, hcounter, -, -, -, houtput⟩ := h₁.read
  have hend : m₂.current? = some ⟨4, .hlt, []⟩ := by
    rw [current?, hprogram, hcounter]
    rfl
  have hwritten : m₂.path.output.toList = (echoed text).map codeOf := by
    rw [houtput]
    exact h₁.output
  exact exists_report_of_halt debugLimit hr (hrounds.trans hread) hlimit hend rfl hwritten

theorem exists_report_unterminated {registers : Nat} {queue : List Char} (hr : 1 ≤ registers)
    (limit debugLimit : UInt64) (hqueue : '\x00' ∉ queue)
    (hlimit : 7 * queue.length < limit.toNat) :
    ∃ r, (simulate image queue ⟨registers, limit, debugLimit⟩).outcome = .ok r ∧
      r.Records queue .endOfInput (4 * queue.length + 1) (7 * queue.length + 1) := by
  have hload := atLoop_load hr (queue ++ [])
  obtain ⟨m, hrounds, hm⟩ := hload.rounds hqueue
  rw [List.append_nil] at hrounds
  exact exists_report_of_awaitsInput debugLimit hr hrounds hlimit hm.awaitsInput hm.output

/-- On a text the program echoes all in front of the first U+0000 and halts. On a queue without one
it echoes everything and stops for want of input. -/
theorem echo_runs {registers : Nat} (hr : 1 ≤ registers) (limit debugLimit : UInt64) :
    (∀ text : List Char, 7 * (echoed text).length + 4 < limit.toNat →
      ∃ r, runSource source text ⟨registers, limit, debugLimit⟩ = .ok r ∧
        r.Records (echoed text) .halted (4 * (echoed text).length + 3)
          (7 * (echoed text).length + 4)) ∧
    ∃ image, Assembly.translate source = .ok image ∧
      ∀ queue : List Char, '\x00' ∉ queue → 7 * queue.length < limit.toNat →
        ∃ r, (simulate image queue ⟨registers, limit, debugLimit⟩).outcome = .ok r ∧
          r.Records queue .endOfInput (4 * queue.length + 1) (7 * queue.length + 1) := by
  refine ⟨fun text hlimit => ?_, image, translate_source, fun queue => ?_⟩
  · rw [runSource, translate_source]
    exact exists_report_terminated hr limit debugLimit hlimit
  · exact exists_report_unterminated hr limit debugLimit

theorem echo_runs_short :
    (∃ r, runSource source ['h', 'ω', '\x00', 'x'] ⟨1, 19, 0⟩ = .ok r ∧ r.text = "h969" ∧
      r.instructions = 11 ∧ r.ticks.toNat = 18) ∧
    ∃ image r, Assembly.translate source = .ok image ∧
      (simulate image ['a', 'b'] ⟨1, 15, 0⟩).outcome = .ok r ∧ r.text = "ab" ∧
      r.stop = .endOfInput ∧ r.instructions = 9 ∧ r.ticks.toNat = 15 := by
  obtain ⟨r, hrun, h⟩ := (echo_runs (Nat.le_refl 1) 19 0).1 ['h', 'ω', '\x00', 'x'] (by decide)
  obtain ⟨image, himage, hqueue⟩ := (echo_runs (Nat.le_refl 1) 15 0).2
  obtain ⟨r', hrun', h'⟩ := hqueue ['a', 'b'] (by decide) (by decide)
  have hplain : ∀ c ∈ ['a', 'b'], c.toNat < 256 :=
    List.forall_mem_cons.2 ⟨by decide, List.forall_mem_singleton.2 (by decide)⟩
  exact ⟨⟨r, hrun, h.shown.trans rfl, h.instructions, h.ticks⟩, image, r', himage, hrun',
    h'.plain hplain, h'.stop, h'.instructions, h'.ticks⟩

end TickMachine.Echo
