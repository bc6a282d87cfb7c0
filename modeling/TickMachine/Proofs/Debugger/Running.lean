import Mathlib.Data.Nat.Find
import Mathlib.Order.Bounds.Defs
import TickMachine.Proofs.Drivers

/-! Continuous running with breakpoints. It goes on to the first step that ends the machine or leads
onto a breakpoint and rests there; only the instruction it starts on may have one. -/

namespace TickMachine

/-- The `k`-th step from `m` ends the machine or leads onto one of the `breakpoints`. -/
def Machine.InterruptedAt (m : Machine) (breakpoints : List UInt64) (k : Nat) : Prop :=
  1 ≤ k ∧ ((m.afterSteps (k - 1)).ending?.isSome ∨ (m.afterSteps k).counter ∈ breakpoints)

namespace Debugger

variable {d : Debugger} {m : Machine} {B : List UInt64} {j k n : Nat}

/-! ### At rest -/

def Rests (d : Debugger) : Prop := d.running = false ∨ d.counter ∈ d.breakpoints

theorem Rests.tick_eq (h : d.Rests) : ∃ status, d.tick = { d with running := false, status } := by
  unfold tick
  cases hrun : d.running with
  | false => exact ⟨d.status, by rw [if_neg Bool.false_ne_true, ← hrun]⟩
  | true =>
    have hc : d.counter ∈ d.breakpoints := h.resolve_left (by simp [hrun])
    exact ⟨.reached d.counter, by rw [if_pos rfl, if_pos hc]⟩

theorem Rests.iterate (h : d.Rests) (n : Nat) : (tick^[n] d).machine = d.machine ∧
    (tick^[n] d).stopped = d.stopped ∧ (1 ≤ n → (tick^[n] d).running = false) := by
  induction n generalizing d with
  | zero => exact ⟨rfl, rfl, nofun⟩
  | succ n ih =>
    obtain ⟨status, htick⟩ := h.tick_eq
    have hrests : d.tick.Rests := .inl (by rw [htick])
    obtain ⟨hmachine, hstopped, hrunning⟩ := ih hrests
    rw [Function.iterate_succ_apply]
    refine ⟨by rw [hmachine, htick], by rw [hstopped, htick], fun _ => ?_⟩
    cases n with
    | zero => rw [Function.iterate_zero_apply, htick]
    | succ n => exact hrunning (Nat.succ_pos n)

/-! ### On the way -/

structure IsAt (m : Machine) (B : List UInt64) (j : Nat) (d : Debugger) : Prop where
  machine : d.machine = m.afterSteps j
  breakpoints : d.breakpoints = B
  stopped : d.stopped = false
  running : d.running = true

theorem IsAt.step_eq (h : d.IsAt m B j) : d.step.machine = m.afterSteps (j + 1) ∧
    d.step.breakpoints = B ∧ d.step.stopped = (m.afterSteps j).ending?.isSome ∧
    d.step.running = (m.afterSteps j).ending?.isNone := by
  obtain ⟨status, hstep⟩ := Debugger.step_eq h.stopped
  rw [hstep, h.running, h.machine, h.breakpoints]
  exact ⟨rfl, rfl, rfl, rfl⟩

theorem IsAt.step (h : d.IsAt m B j) (hnot : ¬ m.InterruptedAt B (j + 1)) :
    d.step.IsAt m B (j + 1) ∧ d.step.counter ∉ B := by
  obtain ⟨hmachine, hbreakpoints, hstopped, hrunning⟩ := h.step_eq
  have hplain : (m.afterSteps j).ending? = none ∧ (m.afterSteps (j + 1)).counter ∉ B := by
    simpa [Machine.InterruptedAt] using hnot
  rw [hplain.1] at hstopped hrunning
  refine ⟨⟨hmachine, hbreakpoints, hstopped, hrunning⟩, ?_⟩
  rw [counter, hmachine]
  exact hplain.2

theorem IsAt.step_interrupted (h : d.IsAt m B j) (hint : m.InterruptedAt B (j + 1)) :
    d.step.Rests := by
  obtain ⟨hmachine, hbreakpoints, -, hrunning⟩ := h.step_eq
  obtain hend | hc := hint.2
  · refine .inl (hrunning.trans ?_)
    simpa using hend
  · refine .inr ?_
    rw [counter, hmachine, hbreakpoints]
    exact hc

theorem IsAt.tick_eq (h : d.IsAt m B j) (hc : d.counter ∉ B) : d.tick = d.step := by
  rw [tick, if_pos h.running, h.breakpoints, if_neg hc]

theorem IsAt.iterate (h : d.IsAt m B 0) (hnot : ∀ i ≤ n + 1, ¬ m.InterruptedAt B i) :
    (tick^[n] d.step).IsAt m B (n + 1) ∧ (tick^[n] d.step).counter ∉ B := by
  induction n with
  | zero => exact h.step (hnot 1 (Nat.le_refl 1))
  | succ n ih =>
    obtain ⟨hat, hc⟩ := ih fun i hi => hnot i (Nat.le_succ_of_le hi)
    rw [Function.iterate_succ_apply', hat.tick_eq hc]
    exact hat.step (hnot _ (Nat.le_refl _))

theorem IsAt.iterate_interrupted (h : d.IsAt m B 0) (hint : m.InterruptedAt B (k + 1))
    (hnot : ∀ i ≤ k, ¬ m.InterruptedAt B i) :
    (tick^[k] d.step).machine = m.afterSteps (k + 1) ∧
      (tick^[k] d.step).stopped = (m.afterSteps k).ending?.isSome ∧ (tick^[k] d.step).Rests := by
  cases k with
  | zero => exact ⟨h.step_eq.1, h.step_eq.2.2.1, h.step_interrupted hint⟩
  | succ k =>
    obtain ⟨hat, hc⟩ := h.iterate hnot
    rw [Function.iterate_succ_apply', hat.tick_eq hc]
    exact ⟨hat.step_eq.1, hat.step_eq.2.2.1, hat.step_interrupted hint⟩

theorem IsAt.iterate_least (h : d.IsAt m B 0) (hk : IsLeast {k | m.InterruptedAt B k} k) (j : Nat) :
    (tick^[j] d.step).machine = m.afterSteps (min (j + 1) k) ∧
      ((tick^[j] d.step).stopped ↔ k ≤ j + 1 ∧ (m.afterSteps (k - 1)).ending?.isSome) ∧
      (k ≤ j → (tick^[j] d.step).running = false) := by
  have hnot : ∀ i < k, ¬ m.InterruptedAt B i := fun i hi hint => Nat.not_le.2 hi (hk.2 hint)
  obtain ⟨i, rfl⟩ := Nat.exists_eq_add_one_of_ne_zero (Nat.ne_of_gt hk.1.1)
  by_cases hj : j < i
  · obtain ⟨hat, -⟩ := h.iterate (n := j) fun l hl => hnot l (by omega)
    rw [Nat.min_eq_left (by omega), hat.stopped]
    refine ⟨hat.machine, ?_, fun hle => by omega⟩
    simp only [Bool.false_eq_true, false_iff, not_and]
    omega
  · obtain ⟨more, rfl⟩ := Nat.exists_eq_add_of_le' (Nat.not_lt.1 hj)
    obtain ⟨hmachine, hstopped, hrests⟩ :=
      h.iterate_interrupted hk.1 fun l hl => hnot l (Nat.lt_succ_of_le hl)
    obtain ⟨hmachine', hstopped', hrunning⟩ := hrests.iterate more
    rw [Function.iterate_add_apply, hmachine', hstopped', hmachine, hstopped,
      Nat.min_eq_right (by omega)]
    refine ⟨rfl, ?_, fun hle => hrunning (by omega)⟩
    simp

/-! ### From the start of a run -/

/-- How many steps a run may have made after `n` ticks: starting it on a breakpoint makes one. -/
def stepsWithin (d : Debugger) (n : Nat) : Nat := if d.counter ∈ d.breakpoints then n + 1 else n

def started (d : Debugger) : Debugger := { d with running := true, status := .running }

theorem isAt_started (hd : d.stopped = false) : d.started.IsAt d.machine d.breakpoints 0 :=
  ⟨rfl, rfl, hd, rfl⟩

theorem iterate_run (hd : d.stopped = false) (n : Nat) :
    n ≤ d.stepsWithin n ∧ (d.stepsWithin n = 0 ∧ tick^[n] d.run = d.started ∨
      ∃ j, d.stepsWithin n = j + 1 ∧ tick^[n] d.run = tick^[j] d.started.step) := by
  unfold stepsWithin
  by_cases hc : d.counter ∈ d.breakpoints
  · have hrun : d.run = d.started.step := if_pos hc
    rw [if_pos hc, hrun]
    exact ⟨Nat.le_succ n, .inr ⟨n, rfl, rfl⟩⟩
  · have hrun : d.run = d.started := if_neg hc
    rw [if_neg hc, hrun]
    refine ⟨Nat.le_refl n, ?_⟩
    cases n with
    | zero => exact .inl ⟨rfl, rfl⟩
    | succ n =>
      refine .inr ⟨n, rfl, ?_⟩
      rw [Function.iterate_succ_apply, (isAt_started hd).tick_eq hc]

theorem run_iterate_least (hd : d.stopped = false)
    (hk : IsLeast {k | d.machine.InterruptedAt d.breakpoints k} k) (n : Nat) :
    (tick^[n] d.run).machine = d.machine.afterSteps (min (d.stepsWithin n) k) ∧
      ((tick^[n] d.run).stopped ↔
        k ≤ d.stepsWithin n ∧ (d.machine.afterSteps (k - 1)).ending?.isSome) ∧
      (k + 1 ≤ n → (tick^[n] d.run).running = false) := by
  have hat := isAt_started hd
  obtain ⟨hle, ⟨hzero, hrun⟩ | ⟨j, hj, hrun⟩⟩ := iterate_run hd n
  · have hpos : 1 ≤ k := hk.1.1
    rw [hzero, hrun, Nat.zero_min, hat.stopped]
    refine ⟨rfl, ?_, fun hn => by omega⟩
    simp only [Bool.false_eq_true, false_iff, not_and]
    omega
  · obtain ⟨hmachine, hstopped, hrunning⟩ := hat.iterate_least hk j
    rw [hj, hrun]
    exact ⟨hmachine, hstopped, fun hn => hrunning (by omega)⟩

theorem run_iterate_free (hd : d.stopped = false)
    (hnot : ∀ k, ¬ d.machine.InterruptedAt d.breakpoints k) (n : Nat) :
    (tick^[n] d.run).machine = d.machine.afterSteps (d.stepsWithin n) ∧
      (tick^[n] d.run).stopped = false ∧ (tick^[n] d.run).running = true := by
  have hat := isAt_started hd
  obtain ⟨-, ⟨hzero, hrun⟩ | ⟨j, hj, hrun⟩⟩ := iterate_run hd n
  · rw [hzero, hrun]
    exact ⟨hat.machine, hat.stopped, hat.running⟩
  · obtain ⟨hat', -⟩ := hat.iterate fun i (_ : i ≤ j + 1) => hnot i
    rw [hj, hrun]
    exact ⟨hat'.machine, hat'.stopped, hat'.running⟩

theorem run_iterate_passes (hd : d.stopped = false) (n : Nat) :
    ∃ j ≤ d.stepsWithin n, (tick^[n] d.run).machine = d.machine.afterSteps j ∧
      ∀ i, 1 ≤ i → i < j → (d.machine.afterSteps i).counter ∉ d.breakpoints := by
  classical
  by_cases hint : ∃ k, d.machine.InterruptedAt d.breakpoints k
  · have hk : IsLeast {k | d.machine.InterruptedAt d.breakpoints k} (Nat.find hint) :=
      ⟨Nat.find_spec hint, fun _ h => Nat.find_min' hint h⟩
    refine ⟨_, Nat.min_le_left _ _, (run_iterate_least hd hk n).1, fun i h1 hi hc => ?_⟩
    have hle : Nat.find hint ≤ i := hk.2 ⟨h1, .inr hc⟩
    omega
  · have hnot := not_exists.1 hint
    exact ⟨_, Nat.le_refl _, (run_iterate_free hd hnot n).1, fun i h1 _ hc => hnot i ⟨h1, .inr hc⟩⟩

/-- Continuous running makes every step up to the first that ends the machine or leads onto a
breakpoint, and none after it. -/
theorem run_stops_at_first (d : Debugger) (hd : d.stopped = false) :
    (∀ k, IsLeast {k | d.machine.InterruptedAt d.breakpoints k} k → ∀ n,
      (tick^[n] d.run).machine = d.machine.afterSteps (min (d.stepsWithin n) k) ∧
      ((tick^[n] d.run).stopped ↔
        k ≤ d.stepsWithin n ∧ (d.machine.afterSteps (k - 1)).ending?.isSome) ∧
      (k + 1 ≤ n → (tick^[n] d.run).running = false)) ∧
    ((∀ k, ¬ d.machine.InterruptedAt d.breakpoints k) → ∀ n,
      (tick^[n] d.run).machine = d.machine.afterSteps (d.stepsWithin n) ∧
      (tick^[n] d.run).stopped = false ∧ (tick^[n] d.run).running = true) ∧
    ∀ n, ∃ j ≤ d.stepsWithin n, (tick^[n] d.run).machine = d.machine.afterSteps j ∧
      ∀ i, 1 ≤ i → i < j → (d.machine.afterSteps i).counter ∉ d.breakpoints :=
  ⟨fun _ hk => run_iterate_least hd hk, run_iterate_free hd, run_iterate_passes hd⟩

theorem run_stops_at_first_loop :
    ((tick^[5] ((ofImage ⟨[], [⟨0, .jmp, [0]⟩]⟩ []).placeBreakpoint 0).run).machine =
      (Machine.load ⟨[], [⟨0, .jmp, [0]⟩]⟩ registerCount []).afterSteps 1 ∧
    (tick^[5] ((ofImage ⟨[], [⟨0, .jmp, [0]⟩]⟩ []).placeBreakpoint 0).run).running = false) ∧
    ∀ n, (tick^[n] (ofImage ⟨[], [⟨0, .jmp, [0]⟩]⟩ []).run).running = true := by
  constructor
  · have hk : IsLeast {k |
        ((ofImage ⟨[], [⟨0, .jmp, [0]⟩]⟩ []).placeBreakpoint 0).machine.InterruptedAt
          ((ofImage ⟨[], [⟨0, .jmp, [0]⟩]⟩ []).placeBreakpoint 0).breakpoints k} 1 :=
      ⟨⟨Nat.le_refl 1, .inr (by decide)⟩, fun _ h => h.1⟩
    obtain ⟨hmachine, -, hrunning⟩ := (run_stops_at_first
      ((ofImage ⟨[], [⟨0, .jmp, [0]⟩]⟩ []).placeBreakpoint 0) rfl).1 1 hk 5
    exact ⟨hmachine, hrunning (by decide)⟩
  · have hloops : ∀ k,
        ((Machine.load ⟨[], [⟨0, .jmp, [0]⟩]⟩ registerCount []).afterSteps k).ending? = none := by
      intro k
      have hstays := Machine.afterSteps_induct
        (m := Machine.load ⟨[], [⟨0, .jmp, [0]⟩]⟩ registerCount [])
        (I := fun m => m.program = #[⟨0, .jmp, [0]⟩] ∧ m.counter = 0)
        (by rintro ⟨_, _, _, _⟩ ⟨rfl, rfl⟩; exact ⟨rfl, rfl⟩) ⟨rfl, rfl⟩ k
      revert hstays
      generalize (Machine.load ⟨[], [⟨0, .jmp, [0]⟩]⟩ registerCount []).afterSteps k = m
      rintro ⟨hprogram, hcounter⟩
      obtain ⟨_, _, _, _⟩ := m
      cases hprogram
      cases hcounter
      rfl
    have hfree := (run_stops_at_first (ofImage ⟨[], [⟨0, .jmp, [0]⟩]⟩ []) rfl).2.1
    refine fun n => (hfree ?_ n).2.2
    rintro k ⟨-, hend | hc⟩
    · rw [ofImage, hloops (k - 1)] at hend
      cases hend
    · cases hc

end Debugger
end TickMachine
