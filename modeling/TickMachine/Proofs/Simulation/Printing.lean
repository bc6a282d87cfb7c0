import TickMachine.Proofs.Machine.Flow
import TickMachine.Proofs.Simulation.Bounded

/-! Runs with exact counts: how many instructions lead from one machine to another and how many
ticks they take, through the rounds of a loop and on to the report. What such a run prints is told
as a text, character by character. -/

namespace TickMachine

namespace DataPath

def codeOf (c : Char) : Int64 := Int64.ofNat c.toNat

/-- What the output shows of a character: itself, or its number from 256 on. -/
def shown (c : Char) : String :=
  if c.toNat < 256 then String.singleton c else toString c.toNat

variable {c : Char} {text : List Char}

theorem toInt_codeOf (c : Char) : (codeOf c).toInt = c.toNat := by
  have hlt : c.toNat < 2 ^ 32 := c.val.toNat_lt
  exact Int64.toInt_ofNat_of_lt (by omega)

theorem codeOf_eq_zero_iff : codeOf c = 0 ↔ c = '\x00' := by
  rw [← Int64.toInt_inj, toInt_codeOf, ← Char.toNat_inj]
  exact Int.natCast_eq_zero

theorem renderCode_codeOf (c : Char) : renderCode (codeOf c) = shown c := by
  rw [renderCode, shown, toInt_codeOf, Int.toNat_natCast, Char.ofNat_toNat]
  by_cases h : c.toNat < 256
  · rw [if_pos (by omega), if_pos h]
  · rw [if_neg (by omega), if_neg h]
    rfl

theorem toList_push_codeOf {codes : Array Int64} (h : codes.toList = text.map codeOf) :
    (codes.push (codeOf c)).toList = (text ++ [c]).map codeOf := by
  rw [Array.toList_push, h, List.map_append]
  rfl

theorem renderOutput_codes :
    renderOutput (text.map codeOf) = String.join (text.map shown) := by
  have hcode : renderCode ∘ codeOf = shown := funext renderCode_codeOf
  rw [renderOutput, List.map_map, hcode]

theorem join_shown (h : ∀ c ∈ text, c.toNat < 256) :
    String.join (text.map shown) = String.ofList text := by
  have hshown : text.map shown = text.map String.singleton :=
    List.map_congr_left fun c hc => if_pos (h c hc)
  rw [hshown, ← String.toList_inj, String.toList_join, String.toList_ofList, List.flatMap_map]
  simp only [String.toList_singleton, List.flatMap_singleton']

end DataPath

namespace Machine

variable {m m₁ m' : Machine} {n n' ticks ticks' : Nat} {ops : List Opcode}

def Passes (m : Machine) (n ticks : Nat) (m' : Machine) : Prop :=
  ∃ ops, Executes m ops m' ∧ ops.length = n ∧ (ops.map Opcode.cost).sum = ticks

theorem Executes.passes (h : Executes m ops m') :
    Passes m ops.length (ops.map Opcode.cost).sum m' := ⟨ops, h, rfl, rfl⟩

theorem Passes.refl (m : Machine) : Passes m 0 0 m := Executes.nil.passes

theorem Passes.trans (h : Passes m n ticks m₁) (h' : Passes m₁ n' ticks' m') :
    Passes m (n + n') (ticks + ticks') m' := by
  obtain ⟨ops, hrun, rfl, rfl⟩ := h
  obtain ⟨ops', hrun', rfl, rfl⟩ := h'
  refine ⟨ops ++ ops', hrun.append hrun', List.length_append, ?_⟩
  rw [List.map_append, List.sum_append]

theorem Passes.performs {w : Word} {d : DataPath} (h : Passes m n ticks m₁)
    (hd : w.Performs m₁.path d) (hw : m₁.current? = some w)
    (hp : w.opcode.microProgram?.isSome) : Passes m (n + 1) (ticks + w.opcode.cost)
      { m₁.later d w.opcode.cost with counter := m₁.counter + 1 } :=
  h.trans (Executes.cons (step_of_performs hw hp hd) .nil).passes

theorem Passes.directs {w : Word} (h : Passes m n ticks m₁) (hm : w.Directs m₁ m')
    (hw : m₁.current? = some w) : Passes m (n + 1) (ticks + w.opcode.cost) m' :=
  h.trans (Executes.cons (step_of_directs hw hm) .nil).passes

theorem Passes.tick (h : Passes m n ticks m') (hlt : m.tick.toNat + ticks < UInt64.size) :
    m'.tick.toNat = m.tick.toNat + ticks := by
  obtain ⟨ops, hrun, -, rfl⟩ := h
  rw [hrun.tick]
  exact tick_later (d := m.path) hlt

/-- A loop that goes through a list comes round once for each of its members. `I` holds where a
round begins, of the members that are done and those to come. -/
theorem Passes.rounds {α : Type} {I : List α → List α → Machine → Prop} {past xs rest : List α}
    (hround : ∀ past x rest m, x ∈ xs → I past (x :: rest) m →
      ∃ m', Passes m n ticks m' ∧ I (past ++ [x]) rest m')
    (h : I past (xs ++ rest) m) :
    ∃ m', Passes m (n * xs.length) (ticks * xs.length) m' ∧ I (past ++ xs) rest m' := by
  -- Induction on the members to come, from wherever the earlier rounds have led.
  induction xs generalizing past m with
  | nil => exact ⟨m, .refl m, by rwa [List.append_nil]⟩
  | cons x xs ih =>
    obtain ⟨m₁, hfirst, h₁⟩ := hround past x (xs ++ rest) m (List.mem_cons_self ..) h
    have hothers := fun past y rest m hy => hround past y rest m (List.mem_cons_of_mem x hy)
    obtain ⟨m', hlater, h'⟩ := ih hothers h₁
    rw [List.append_assoc, List.singleton_append] at h'
    refine ⟨m', ?_, h'⟩
    rw [List.length_cons, Nat.mul_succ, Nat.mul_succ, Nat.add_comm _ n, Nat.add_comm _ ticks]
    exact hfirst.trans hlater

end Machine

namespace Simulation

open Machine (Passes Executes)

variable {limit : UInt64} {m m' : Machine} {n ticks registers : Nat}
  {stop : Except Machine.Fault Stop} {text : List Char} {image : Image} {input : List Char}

theorem exists_traces_of_executes {ops : List Opcode} {ending : Ending} (h : Executes m ops m')
    (hlt : m.tick.toNat + (ops.map Opcode.cost).sum < limit.toNat)
    (hend : m'.clockedEnding? = some ending) :
    ∃ ms, Traces limit m ms m'.next ending ∧ begun ms ending = ops.length + 1 := by
  induction h with
  | nil =>
    exact ⟨[], .ended (UInt64.lt_iff_toNat_lt.2 hlt) hend, begun_of_clockedEnding? hend⟩
  | @cons m m₁ m' op ops hstep _ ih =>
    have hnext : m.next = m₁ := by rw [Machine.next, hstep]
    have hnone : m.ending? = none :=
      Machine.ending?_eq_none_iff.2 ⟨op, hstep.trans (by rw [hnext])⟩
    have hmax : limit.toNat < UInt64.size := limit.toNat_lt
    rw [List.map_cons, List.sum_cons] at hlt
    have htick : m₁.tick.toNat = m.tick.toNat + op.cost := by
      rw [(Machine.tick_of_executed hstep).2]
      exact Machine.tick_later (d := m.path) (by omega)
    have hclock : m.tick ≤ m.next.tick := by
      rw [hnext]
      exact UInt64.le_iff_toNat_le.2 (by omega)
    have hgoes : m.clockedEnding? = none := by
      rw [Machine.clockedEnding?_of_le hclock, hnone, Option.map_none]
    obtain ⟨ms, htrace, hbegun⟩ := ih (by omega) hend
    refine ⟨m₁ :: ms, hnext ▸ .executed (UInt64.lt_iff_toNat_lt.2 (by omega)) hgoes ?_, ?_⟩
    · rwa [hnext]
    · rw [begun_cons, hbegun, List.length_cons]

structure Report.Records (r : Report) (text : List Char) (stop : Stop) (instructions ticks : Nat) :
    Prop where
  output : r.output = text.map DataPath.codeOf
  shown : r.text = String.join (text.map DataPath.shown)
  plain : (∀ c ∈ text, c.toNat < 256) → r.text = String.ofList text
  stop : r.stop = stop
  instructions : r.instructions = instructions
  ticks : r.ticks.toNat = ticks

theorem exists_report (debugLimit : UInt64) {stop : Stop} (hr : 1 ≤ registers)
    (h : Passes (.load image registers input) n ticks m) (hlt : ticks < limit.toNat)
    (hend : m.clockedEnding? = some (.stopped (.ok stop)))
    (houtput : m.next.path.output.toList = text.map DataPath.codeOf) :
    ∃ r, (simulate image input ⟨registers, limit, debugLimit⟩).outcome = .ok r ∧
      r.Records text stop (n + 1) m.next.tick.toNat := by
  obtain ⟨ops, hrun, rfl, rfl⟩ := h
  have htick : (Machine.load image registers input).tick.toNat = 0 := rfl
  obtain ⟨ms, htrace, hbegun⟩ : ∃ ms, Traces limit _ ms _ _ ∧ _ :=
    exists_traces_of_executes hrun (by rwa [htick, Nat.zero_add]) hend
  have houtcome : (simulate image input ⟨registers, limit, debugLimit⟩).outcome = _ :=
    outcome_of_traces (Nat.ne_of_gt hr) htrace
  rw [hbegun] at houtcome
  have hshown : DataPath.renderOutput m.next.path.output.toList =
      String.join (text.map DataPath.shown) := by
    rw [houtput, DataPath.renderOutput_codes]
  refine ⟨_, houtcome, houtput, hshown, fun hplain => ?_, rfl, rfl, rfl⟩
  exact hshown.trans (DataPath.join_shown hplain)

theorem tick_of_passes (h : Passes (.load image registers input) n ticks m)
    (hlt : ticks < limit.toNat) : m.tick.toNat = ticks := by
  have hmax : limit.toNat < UInt64.size := limit.toNat_lt
  have htick : (Machine.load image registers input).tick.toNat = 0 := rfl
  rw [h.tick (by omega), htick, Nat.zero_add]

theorem exists_report_of_halt (debugLimit : UInt64) {w : Word} (hr : 1 ≤ registers)
    (h : Passes (.load image registers input) n ticks m) (hlt : ticks < limit.toNat)
    (hw : m.current? = some w) (hop : w.opcode = .hlt)
    (houtput : m.path.output.toList = text.map DataPath.codeOf) :
    ∃ r, (simulate image input ⟨registers, limit, debugLimit⟩).outcome = .ok r ∧
      r.Records text .halted (n + 1) ticks := by
  have hstep : m.step = .ok .halted m := by
    rw [Machine.step_of_current hw, Machine.execute_hlt hop]
  have hhalts : m.ending? = some (.ok .halted) := by rw [Machine.ending?, hstep]
  have hnext : m.next = m := Machine.next_of_halted hhalts
  have hend : m.clockedEnding? = some (.stopped (.ok .halted)) := by
    rw [Machine.clockedEnding?_of_le (by rw [hnext]; exact UInt64.le_refl _), hhalts,
      Option.map_some]
  have hreport := exists_report debugLimit hr h hlt hend (by rwa [hnext])
  rwa [hnext, tick_of_passes h hlt] at hreport

theorem exists_report_of_awaitsInput (debugLimit : UInt64) (hr : 1 ≤ registers)
    (h : Passes (.load image registers input) n ticks m) (hlt : ticks < limit.toNat)
    (hwait : m.AwaitsInput) (houtput : m.path.output.toList = text.map DataPath.codeOf) :
    ∃ r, (simulate image input ⟨registers, limit, debugLimit⟩).outcome = .ok r ∧
      r.Records text .endOfInput (n + 1) (ticks + 1) := by
  have hstep := Machine.step_of_awaitsInput hwait
  have hwaits : m.ending? = some (.ok .endOfInput) := by
    rw [Machine.ending?, hstep]
    rfl
  have hnext : m.next = m.waited := Machine.next_of_error hstep
  have hmax : limit.toNat < UInt64.size := limit.toNat_lt
  have htick := tick_of_passes h hlt
  have hone : m.tick.toNat + 1 < UInt64.size := by omega
  have hwaited : m.waited.tick.toNat = m.tick.toNat + 1 := Machine.tick_later (d := m.path) hone
  have hend : m.clockedEnding? = some (.stopped (.ok .endOfInput)) := by
    have hclock : m.tick ≤ m.next.tick := by
      rw [hnext]
      exact UInt64.le_iff_toNat_le.2 (by omega)
    rw [Machine.clockedEnding?_of_le hclock, hwaits, Option.map_some]
  have hreport := exists_report debugLimit hr h hlt hend (by rw [hnext]; exact houtput)
  rwa [hnext, hwaited, htick] at hreport

end Simulation
end TickMachine
