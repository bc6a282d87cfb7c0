import TickMachine.Proofs.Simulation.Bounded

/-! How far the clock of a bounded run can be from the number of its steps. An executed step takes
one to four ticks, and what the last one takes depends on how it ends, so that the counts of a
report bound each other and no step of the run lets the clock overflow. -/

namespace TickMachine

namespace Machine

variable {m : Machine}

theorem ticks_of_next (ht : m.tick.toNat ≤ UInt64.size - 5) :
    ∃ ticks ≤ 4, m.next.tick.toNat = m.tick.toNat + ticks := by
  unfold next
  cases hstep : step m with
  | ok o m' =>
    cases o with
    | executed op => exact ⟨op.cost, op.cost_le, toNat_tick_of_executed ht hstep⟩
    | halted => exact ⟨0, by decide, congrArg (·.tick.toNat) (step_halted hstep)⟩
  | error fault m' =>
    obtain ⟨ticks, hle, -, htick⟩ := (failsInto_of_step ht hstep).ticks
    exact ⟨ticks, Nat.le_succ_of_le hle, htick⟩

theorem toNat_tick_waited (ht : m.tick.toNat ≤ UInt64.size - 5) :
    m.waited.tick.toNat = m.tick.toNat + 1 :=
  tick_later (d := m.path) (tick_add_lt ht (by decide))

theorem afterSteps_next (k : Nat) : m.next.afterSteps k = m.afterSteps (k + 1) := by
  induction k with
  | zero => rfl
  | succ k ih => rw [afterSteps, ih]; rfl

end Machine

namespace Simulation

open Machine (ending?_eq_none_iff ending?_cases step_halted afterSteps_next)

variable {limit : UInt64} {m m' : Machine} {n k : Nat} {stop : Except Machine.Fault Stop}
  {fault : Machine.Fault}

theorem Runs.tick_lt_of_lt (h : Runs limit m n m' stop) (hk : k < n) :
    (m.afterSteps k).tick < limit := by
  induction h generalizing k with
  | out => exact absurd hk (Nat.not_lt_zero k)
  | ended hm =>
    obtain rfl : k = 0 := Nat.lt_one_iff.1 hk
    exact hm
  | executed hm _ _ ih =>
    cases k with
    | zero => exact hm
    | succ k =>
      rw [← afterSteps_next]
      exact ih (Nat.lt_of_succ_lt_succ hk)

theorem Runs.last (h : Runs limit m n m' stop) (hstop : stop ≠ .ok .tickLimit) :
    ∃ k, n = k + 1 ∧ (m.afterSteps k).ending? = some stop ∧ m' = (m.afterSteps k).next := by
  induction h with
  | out => exact absurd rfl hstop
  | ended _ hend => exact ⟨0, rfl, hend, rfl⟩
  | executed _ _ _ ih =>
    obtain ⟨k, hn, hend, hm'⟩ := ih hstop
    rw [afterSteps_next] at hend hm'
    exact ⟨k + 1, by rw [hn], hend, hm'⟩

def Paced (limit first steps last : Nat) : Except Machine.Fault Stop → Prop
  | .ok .halted => last < limit ∧ 1 ≤ steps ∧
      first + (steps - 1) ≤ last ∧ last ≤ first + 4 * (steps - 1)
  | .ok .endOfInput => last ≤ limit ∧ 1 ≤ steps ∧
      first + steps ≤ last ∧ last ≤ first + 4 * (steps - 1) + 1
  | .ok .tickLimit => limit ≤ last ∧ last ≤ max first (limit + 3) ∧
      first + steps ≤ last ∧ last ≤ first + 4 * steps
  | .error _ => last ≤ limit + 2

theorem Paced.executed {limit first second steps last : Nat}
    (h : Paced limit second steps last stop) (hlimit : first < limit) (hlt : first < second)
    (hle : second ≤ first + 4) : Paced limit first (steps + 1) last stop := by
  match stop with
  | .ok .halted => simp only [Paced] at h ⊢; omega
  | .ok .endOfInput => simp only [Paced] at h ⊢; omega
  | .ok .tickLimit => simp only [Paced] at h ⊢; omega
  | .error fault => exact h

theorem paced_ended (hmax : limit.toNat ≤ UInt64.size - 4) (hm : m.tick < limit)
    (h : m.ending? = some stop) : Paced limit.toNat m.tick.toNat 1 m.next.tick.toNat stop := by
  have ht := tick_le_of_lt hmax hm
  have hlt := UInt64.lt_iff_toNat_lt.1 hm
  obtain ⟨rfl, hstep⟩ | ⟨rfl, hstep⟩ | ⟨fault, rfl, hstep⟩ := ending?_cases h
  · rw [step_halted hstep]
    simp only [Paced]
    omega
  · have hawaits := Machine.awaitsInput_of_step hstep
    have hnext : m.next = m.waited := Machine.next_of_error (Machine.step_of_awaitsInput hawaits)
    rw [hnext, Machine.toNat_tick_waited ht]
    simp only [Paced]
    omega
  · obtain ⟨ticks, hle, -, htick⟩ := (Machine.failsInto_of_step ht hstep).ticks
    simp only [Paced]
    omega

theorem Runs.paced (hmax : limit.toNat ≤ UInt64.size - 4) (h : Runs limit m n m' stop) :
    Paced limit.toNat m.tick.toNat n m'.tick.toNat stop := by
  induction h with
  | out hm =>
    have hle := UInt64.le_iff_toNat_le.1 hm
    simp only [Paced]
    omega
  | ended hm hend => exact paced_ended hmax hm hend
  | executed hm hnone _ ih =>
    have ht := tick_le_of_lt hmax hm
    obtain ⟨ticks, hle, htick⟩ := Machine.ticks_of_next ht
    have hlt := Machine.tick_lt_next ht hnone
    exact ih.executed (UInt64.lt_iff_toNat_lt.1 hm) hlt (by omega)

structure Report.IsConsistent (limit : UInt64) (r : Report) : Prop where
  limitReached : r.limitReached = decide (limit ≤ r.ticks)
  instructions : r.instructions ≤ limit.toNat
  halted : r.stop = .halted → r.ticks < limit ∧ 1 ≤ r.instructions ∧
    r.instructions - 1 ≤ r.ticks.toNat ∧ r.ticks.toNat ≤ 4 * (r.instructions - 1)
  endOfInput : r.stop = .endOfInput → r.ticks ≤ limit ∧ (r.limitReached ↔ r.ticks = limit) ∧
    1 ≤ r.instructions ∧ r.instructions ≤ r.ticks.toNat ∧
    r.ticks.toNat ≤ 4 * (r.instructions - 1) + 1
  tickLimit : r.stop = .tickLimit → limit ≤ r.ticks ∧
    (1 ≤ limit → r.ticks.toNat ≤ limit.toNat + 3) ∧
    r.instructions ≤ r.ticks.toNat ∧ r.ticks.toNat ≤ 4 * r.instructions ∧
    (limit = 0 → r.ticks = 0 ∧ r.instructions = 0)

/-- What the outcome of `n` steps from `m` tells. The counter of a fault is the address of the word
whose step has failed, unless there is no word. -/
def Accounts (limit : UInt64) (m : Machine) (n : Nat) : Except Fault Report → Prop
  | .ok r => r.instructions = n ∧ r.IsConsistent limit
  | .error (.machine tick counter fault) => tick.toNat ≤ limit.toNat + 2 ∧
      ∃ k m', n = k + 1 ∧ Machine.step (m.afterSteps k) = .error fault m' ∧
        counter = (m.afterSteps k).counter ∧
        ((∃ w, m.program[counter.toNat]? = some w ∧ fault.Tells w m') ∨
          m.program.size ≤ counter.toNat ∧ fault = .counterOutOfRange counter m.program.size)
  | .error _ => False

theorem isConsistent_of_paced {r : Report} (hlimit : r.limitReached = decide (limit ≤ r.ticks))
    (hn : r.instructions ≤ limit.toNat)
    (h : Paced limit.toNat 0 r.instructions r.ticks.toNat (.ok r.stop)) :
    r.IsConsistent limit where
  limitReached := hlimit
  instructions := hn
  halted hstop := by
    simp only [hstop, Paced] at h
    exact ⟨UInt64.lt_iff_toNat_lt.2 h.1, h.2.1, by omega, by omega⟩
  endOfInput hstop := by
    simp only [hstop, Paced] at h
    have hle : r.ticks ≤ limit := UInt64.le_iff_toNat_le.2 h.1
    refine ⟨hle, ?_, h.2.1, by omega, by omega⟩
    rw [hlimit, decide_eq_true_iff]
    exact ⟨fun hge => UInt64.le_antisymm hle hge, fun heq => heq ▸ UInt64.le_refl _⟩
  tickLimit hstop := by
    simp only [hstop, Paced] at h
    refine ⟨UInt64.le_iff_toNat_le.2 h.1, fun _ => by omega, by omega, by omega, ?_⟩
    rintro rfl
    have hzero : r.instructions = 0 := Nat.le_zero.1 hn
    exact ⟨UInt64.toNat_inj.1 (by omega), hzero⟩

theorem fault_address {m₀ : Machine} (hprogram : m.program = m₀.program)
    (ht : m.tick.toNat ≤ UInt64.size - 5) (h : m.step = .error fault m') :
    m'.counter = m.counter ∧
      ((∃ w, m₀.program[m'.counter.toNat]? = some w ∧ fault.Tells w m') ∨
        m₀.program.size ≤ m'.counter.toNat ∧
          fault = .counterOutOfRange m'.counter m₀.program.size) := by
  have hcounter := (Machine.failsInto_of_step ht h).counter
  rw [hcounter, ← hprogram]
  refine ⟨rfl, ?_⟩
  obtain ⟨hnone, hfault⟩ | ⟨w, hw, htells⟩ := Machine.step_tells h
  · exact .inr ⟨Array.getElem?_eq_none_iff.1 hnone, hfault⟩
  · exact .inl ⟨w, hw, htells⟩

theorem accounts_of_runs (hmax : limit.toNat ≤ UInt64.size - 4) (hm : m.tick = 0)
    (h : Runs limit m n m' stop) : Accounts limit m n (outcomeOf limit n m' stop) := by
  have hn : n ≤ limit.toNat := Nat.le_trans (h.count_le hmax) (Nat.sub_le _ _)
  have hpaced := h.paced hmax
  rw [hm] at hpaced
  match stop with
  | .ok stop => exact ⟨rfl, isConsistent_of_paced rfl hn hpaced⟩
  | .error fault =>
    obtain ⟨k, rfl, hend, rfl⟩ := h.last nofun
    obtain ⟨hstop, -⟩ | ⟨hstop, -⟩ | ⟨fault', hstop, hstep⟩ := ending?_cases hend
    · cases hstop
    · cases hstop
    · obtain rfl := Except.error.inj hstop
      have ht := tick_le_of_lt hmax (h.tick_lt_of_lt (Nat.lt_succ_self k))
      obtain ⟨hcounter, haddress⟩ := fault_address (Machine.afterSteps_keep k).1 ht hstep
      exact ⟨hpaced, k, _, rfl, hstep, hcounter, haddress⟩

/-- A bounded run always comes to its end, after no more steps than its limit has ticks and without
an overflow of the clock, and what it reports is consistent. -/
theorem simulate_consistent (image : Image) (input : List Char) {registers : Nat}
    (hr : 1 ≤ registers) (limit debugLimit : UInt64) (hmax : limit.toNat ≤ UInt64.size - 4) :
    ∃ n m stop, Runs limit (.load image registers input) n m stop ∧ n ≤ limit.toNat ∧
      (∀ k < n, ∃ ticks ≤ 4,
        ((Machine.load image registers input).afterSteps (k + 1)).tick.toNat =
          ((Machine.load image registers input).afterSteps k).tick.toNat + ticks) ∧
      (simulate image input ⟨registers, limit, debugLimit⟩).outcome = outcomeOf limit n m stop ∧
      Accounts limit (.load image registers input) n
        (simulate image input ⟨registers, limit, debugLimit⟩).outcome := by
  obtain ⟨n, m, stop, hrun⟩ := exists_runs hmax (.load image registers input)
  have houtcome : (simulate image input ⟨registers, limit, debugLimit⟩).outcome =
      outcomeOf limit n m stop := outcome_of_runs hmax (Nat.ne_of_gt hr) hrun
  refine ⟨n, m, stop, hrun, Nat.le_trans (hrun.count_le hmax) (Nat.sub_le _ _), ?_, houtcome, ?_⟩
  · intro k hk
    exact Machine.ticks_of_next (tick_le_of_lt hmax (hrun.tick_lt_of_lt hk))
  · rw [houtcome]
    exact accounts_of_runs hmax rfl hrun

theorem simulate_consistent_late :
    (∃ n ≤ 2, Accounts 2 (.load ⟨[], [⟨0, .mov, [0, 1]⟩, ⟨1, .loadV, [0, 0]⟩]⟩ 1 []) n
      (.ok ⟨[], 2, 2, .endOfInput, true, [1]⟩)) ∧
    ∃ n ≤ 1, Accounts 1 (.load ⟨[⟨0, .number, [5]⟩], [⟨0, .addMmr, [9, 0, 0]⟩]⟩ 1 []) n
      (.error (.machine 3 0 (.path (.addressOutOfRange 9 1)))) := by
  obtain ⟨n₁, _, _, -, hn₁, -, -, h₁⟩ := simulate_consistent
    ⟨[], [⟨0, .mov, [0, 1]⟩, ⟨1, .loadV, [0, 0]⟩]⟩ [] (Nat.le_refl 1) 2 0 (by decide)
  obtain ⟨n₂, _, _, -, hn₂, -, -, h₂⟩ := simulate_consistent
    ⟨[⟨0, .number, [5]⟩], [⟨0, .addMmr, [9, 0, 0]⟩]⟩ [] (Nat.le_refl 1) 1 0 (by decide)
  exact ⟨⟨n₁, hn₁, h₁⟩, n₂, hn₂, h₂⟩

end Simulation
end TickMachine
