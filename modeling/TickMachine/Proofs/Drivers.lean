import Mathlib.Logic.Function.Iterate
import TickMachine.Debugger.Basic
import TickMachine.Proofs.Simulation.Bounded
import TickMachine.Session

/-! Three loops over one machine: bounded runs, sessions and the debugger. Each of them carries out
single steps and tells an executed instruction from an end in its own way, and all of them leave the
machine where the others do. -/

namespace TickMachine

open Simulation

namespace Simulation

def hasEnded : Except Machine.Fault Stop → Bool
  | .ok .tickLimit => false
  | _ => true

theorem hasEnded_of_ne {stop : Except Machine.Fault Stop} (h : stop ≠ .ok .tickLimit) :
    hasEnded stop := by
  match stop with
  | .error fault => rfl
  | .ok .halted => rfl
  | .ok .endOfInput => rfl
  | .ok .tickLimit => exact absurd rfl h

theorem hasEnded_of_ending? {m : Machine} {stop : Except Machine.Fault Stop}
    (h : m.ending? = some stop) : hasEnded stop :=
  hasEnded_of_ne fun hstop => Machine.ending?_ne_tickLimit (hstop ▸ h)

end Simulation

/-! ### Sessions -/

namespace Session

variable {s : Session} {m m' : Machine} {limit limit₁ limit₂ : UInt32} {n fuel : Nat}
  {stop : Except Machine.Fault Stop}

def afterStep (s : Session) : Session := s.step.2

def IsActive (limit : UInt32) (s : Session) : Prop :=
  s.halted = false ∧ s.tick < limit.toUInt64

theorem afterStep_eq (hs : s.halted = false) (hm : s.machine = some m) :
    s.afterStep = { s with machine := some m.next, halted := m.ending?.isSome } := by
  obtain ⟨machine, image, input, halted⟩ := s
  obtain rfl : halted = false := hs
  obtain rfl : machine = some m := hm
  unfold afterStep step Machine.next Machine.ending?
  dsimp only
  cases m.step with
  | ok o m' => cases o <;> rfl
  | error fault m' => rfl

theorem runMachine_succ {limit : UInt64} (hm : m.tick < limit) :
    runMachine limit (fuel + 1) m = match m.ending? with
      | none => runMachine limit fuel m.next
      | some _ => (m.next, true) := by
  rw [runMachine, if_neg (UInt64.not_le.2 hm)]
  unfold Machine.next Machine.ending?
  cases m.step with
  | ok o m' => cases o <;> rfl
  | error fault m' => rfl

theorem runMachine_of_runs {limit : UInt64} (h : Runs limit m n m' stop) (hfuel : n ≤ fuel) :
    runMachine limit fuel m = (m', hasEnded stop) := by
  induction h generalizing fuel with
  | out hm =>
    cases fuel with
    | zero => rfl
    | succ fuel => exact if_pos hm
  | ended hm hend =>
    obtain ⟨fuel, rfl⟩ := Nat.exists_eq_add_one_of_ne_zero (Nat.ne_of_gt hfuel)
    rw [runMachine_succ hm, hend, hasEnded_of_ending? hend]
  | executed hm hnone _ ih =>
    obtain ⟨fuel, rfl⟩ := Nat.exists_eq_add_one_of_ne_zero (Nat.ne_of_gt (Nat.zero_lt_of_lt hfuel))
    rw [runMachine_succ hm, hnone]
    exact ih (Nat.le_of_succ_le_succ hfuel)

theorem limit_le (limit : UInt32) : limit.toUInt64.toNat ≤ UInt64.size - 4 := by
  have hlt := limit.toNat_lt
  have hsize : UInt64.size = 18446744073709551616 := rfl
  rw [UInt32.toNat_toUInt64]
  omega

theorem run_of_runs (hs : s.halted = false) (hm : s.machine = some m)
    (h : Runs limit.toUInt64 m n m' stop) :
    s.run limit = { s with machine := some m', halted := hasEnded stop } := by
  have hcount := h.count_le (limit_le limit)
  rw [UInt32.toNat_toUInt64] at hcount
  have hloop := runMachine_of_runs h (Nat.le_trans hcount (Nat.sub_le _ _))
  rw [run, hs, if_neg Bool.false_ne_true, hm]
  dsimp only
  rw [hloop]

theorem run_of_halted (hs : s.halted) : s.run limit = s := if_pos hs

theorem isActive_iff (hm : s.machine = some m) :
    s.IsActive limit ↔ s.halted = false ∧ m.tick < limit.toUInt64 := by
  rw [IsActive, tick, hm]
  rfl

theorem not_isActive_of_halted (hs : s.halted) : ¬ s.IsActive limit := by
  rintro ⟨hhalted, -⟩
  rw [hs] at hhalted
  cases hhalted

theorem afterSteps_of_runs (hs : s.halted = false) (hm : s.machine = some m)
    (h : Runs limit.toUInt64 m n m' stop) :
    (∀ k < n, (afterStep^[k] s).IsActive limit) ∧ ¬ (afterStep^[n] s).IsActive limit ∧
      afterStep^[n] s = { s with machine := some m', halted := hasEnded stop } := by
  induction h generalizing s with
  | out ht =>
    refine ⟨nofun, fun hactive => ?_, ?_⟩
    · exact UInt64.not_lt.2 ht ((isActive_iff hm).1 hactive).2
    · rw [hasEnded, ← hs, ← hm]
      rfl
  | ended ht hend =>
    have hafter := afterStep_eq hs hm
    rw [hend] at hafter
    refine ⟨fun k hk => ?_, ?_, ?_⟩
    · obtain rfl : k = 0 := Nat.lt_one_iff.1 hk
      exact (isActive_iff hm).2 ⟨hs, ht⟩
    · rw [Function.iterate_one, hafter]
      exact not_isActive_of_halted rfl
    · rw [Function.iterate_one, hafter, hasEnded_of_ending? hend]
      rfl
  | executed ht hnone _ ih =>
    have hafter := afterStep_eq hs hm
    rw [hnone] at hafter
    obtain ⟨hbefore, hend, heq⟩ := ih (s := s.afterStep) (by rw [hafter]; rfl) (by rw [hafter])
    refine ⟨fun k hk => ?_, hend, ?_⟩
    · cases k with
      | zero => exact (isActive_iff hm).2 ⟨hs, ht⟩
      | succ k => exact hbefore k (Nat.lt_of_succ_lt_succ hk)
    · rw [Function.iterate_succ_apply, heq, hafter]

theorem run_eq_afterSteps (hm : s.machine = some m) (limit : UInt32) :
    ∃ n, (∀ k < n, (afterStep^[k] s).IsActive limit) ∧ ¬ (afterStep^[n] s).IsActive limit ∧
      s.run limit = afterStep^[n] s := by
  cases hs : s.halted with
  | true => exact ⟨0, nofun, not_isActive_of_halted hs, run_of_halted hs⟩
  | false =>
    obtain ⟨n, m', stop, hrun⟩ := exists_runs (limit_le limit) m
    obtain ⟨hbefore, hend, hafter⟩ := afterSteps_of_runs hs hm hrun
    exact ⟨n, hbefore, hend, (run_of_runs hs hm hrun).trans hafter.symm⟩

theorem run_run (hm : s.machine = some m) (hle : limit₁ ≤ limit₂) :
    (s.run limit₁).run limit₂ = s.run limit₂ := by
  have hle' : limit₁.toUInt64 ≤ limit₂.toUInt64 := by
    rw [UInt64.le_iff_toNat_le, UInt32.toNat_toUInt64, UInt32.toNat_toUInt64]
    exact UInt32.le_iff_toNat_le.1 hle
  cases hs : s.halted with
  | true => rw [run_of_halted hs]
  | false =>
    obtain ⟨n, m₁, stop, hrun⟩ := exists_runs (limit_le limit₁) m
    rw [run_of_runs hs hm hrun]
    by_cases hstop : stop = .ok .tickLimit
    · subst hstop
      obtain ⟨k, m₂, stop₂, hrun₂⟩ := exists_runs (limit_le limit₂) m
      obtain ⟨j, -, hlater⟩ := hrun.resume hle' hrun₂
      rw [run_of_runs hs hm hrun₂]
      exact run_of_runs rfl rfl hlater
    · rw [run_of_runs hs hm (hrun.raise hle' hstop)]
      exact run_of_halted (hasEnded_of_ne hstop)

def Agrees (s : Session) : Except Simulation.Fault Report → Prop
  | .ok r => s.tick = r.ticks ∧ s.output = r.text ∧ s.registers = r.registers ∧
    s.halted = decide (r.stop ≠ .tickLimit)
  | .error (.machine tick counter _) => s.tick = tick ∧ s.counter = counter ∧ s.halted = true
  | .error _ => False

theorem agrees_outcomeOf {limit : UInt64} {n : Nat} (image : Image) (input : List Char)
    (m : Machine) (stop : Except Machine.Fault Stop) :
    (⟨some m, image, input, hasEnded stop⟩ : Session).Agrees (outcomeOf limit n m stop) := by
  match stop with
  | .error fault => exact ⟨rfl, rfl, rfl⟩
  | .ok .halted => exact ⟨rfl, rfl, rfl, rfl⟩
  | .ok .endOfInput => exact ⟨rfl, rfl, rfl, rfl⟩
  | .ok .tickLimit => exact ⟨rfl, rfl, rfl, rfl⟩

theorem run_load_agrees (s : Session) (image : Image) (text : List Char) (limit : UInt32)
    (debugLimit : UInt64) : ((s.load image text).run limit).Agrees
      (simulate image (DataPath.terminated text)
        ⟨registerCount, limit.toUInt64, debugLimit⟩).outcome := by
  have hr : registerCount ≠ 0 := by decide
  obtain ⟨n, m, stop, hrun⟩ := exists_runs (limit_le limit)
    (.load image registerCount (DataPath.terminated text))
  rw [outcome_of_runs (limit_le limit) hr hrun, run_of_runs (s := s.load image text) rfl rfl hrun]
  exact agrees_outcomeOf _ _ m stop

end Session

/-! ### The debugger -/

/-- The machine after `n` steps, or after fewer if one of them halts or fails. -/
def Machine.upTo (m : Machine) : Nat → Machine
  | 0 => m
  | n + 1 =>
    match m.step with
    | .ok (.executed _) m' => m'.upTo n
    | .ok .halted m' => m'
    | .error _ m' => m'

theorem Machine.upTo_succ (m : Machine) (n : Nat) : m.upTo (n + 1) = match m.ending? with
    | none => m.next.upTo n
    | some _ => m.next := by
  rw [upTo]
  unfold next ending?
  cases m.step with
  | ok o m' => cases o <;> rfl
  | error fault m' => rfl

namespace Debugger

variable {d : Debugger} {f : Debugger → Debugger} {live idle : Debugger → Prop}

structure Drives (f : Debugger → Debugger) (live idle : Debugger → Prop) : Prop where
  machine {d : Debugger} (hd : live d) : (f d).machine = d.machine.next
  goes_on {d : Debugger} (hd : live d) (h : d.machine.ending? = none) : live (f d)
  ends {d : Debugger} (hd : live d) (h : d.machine.ending?.isSome) : idle (f d)
  rests {d : Debugger} (hd : idle d) : (f d).machine = d.machine ∧ idle (f d)

theorem Drives.iterate_idle (h : Drives f live idle) (hd : idle d) (n : Nat) :
    (f^[n] d).machine = d.machine := by
  induction n generalizing d with
  | zero => rfl
  | succ n ih => rw [Function.iterate_succ_apply, ih (h.rests hd).2, (h.rests hd).1]

theorem Drives.iterate (h : Drives f live idle) (hd : live d) (n : Nat) :
    (f^[n] d).machine = d.machine.upTo n := by
  induction n generalizing d with
  | zero => rfl
  | succ n ih =>
    rw [Function.iterate_succ_apply, Machine.upTo_succ, ← h.machine hd]
    cases hending : d.machine.ending? with
    | none => exact ih (h.goes_on hd hending)
    | some stop => exact h.iterate_idle (h.ends hd (Option.isSome_iff_exists.2 ⟨stop, hending⟩)) n

theorem step_eq (hd : d.stopped = false) : ∃ status, d.step = { d with
    machine := d.machine.next
    stopped := d.machine.ending?.isSome
    running := d.running && d.machine.ending?.isNone
    status } := by
  obtain ⟨m, image, input, breakpoints, running, stopped, status, scroll⟩ := d
  obtain rfl : stopped = false := hd
  unfold step Machine.next Machine.ending?
  dsimp only
  cases m.step with
  | ok o m' => cases o <;> cases running <;> exact ⟨_, rfl⟩
  | error fault m' =>
    simp only [Bool.false_eq_true, ↓reduceIte]
    split <;> cases running <;> exact ⟨_, rfl⟩

theorem drives_step : Drives step (·.stopped = false) (·.stopped) where
  machine hd := by
    obtain ⟨status, h⟩ := step_eq hd
    rw [h]
  goes_on hd hnone := by
    obtain ⟨status, h⟩ := step_eq hd
    rw [h, hnone]
    rfl
  ends hd hsome := by
    obtain ⟨status, h⟩ := step_eq hd
    rwa [h]
  rests hd := by
    rw [step, if_pos hd]
    exact ⟨rfl, hd⟩

structure IsFree (d : Debugger) : Prop where
  stopped : d.stopped = false
  running : d.running = true
  breakpoints : d.breakpoints = []

theorem tick_eq_step (hd : d.IsFree) : d.tick = d.step := by
  rw [tick, if_pos hd.running, hd.breakpoints, if_neg List.not_mem_nil]

theorem drives_tick : Drives tick IsFree (·.running = false) where
  machine hd := by
    obtain ⟨status, h⟩ := step_eq hd.stopped
    rw [tick_eq_step hd, h]
  goes_on hd hnone := by
    obtain ⟨status, h⟩ := step_eq hd.stopped
    rw [tick_eq_step hd, h, hnone, hd.running]
    exact ⟨rfl, rfl, hd.breakpoints⟩
  ends hd hsome := by
    obtain ⟨status, h⟩ := step_eq hd.stopped
    rw [tick_eq_step hd, h]
    simp [hsome]
  rests hd := by
    rw [tick, if_neg (by simp [hd])]
    exact ⟨rfl, hd⟩

theorem isFree_run (image : Image) (input : List Char) : (ofImage image input).run.IsFree :=
  ⟨rfl, rfl, rfl⟩

end Debugger

/-- The three loops agree. A session that is run right after a load comes to where a simulation of
the image does; running a session is stepping it as long as it is active, so that it can be done in
parts; and a debugger without breakpoints carries out the steps of its machine up to the first end,
step by step or running. -/
theorem drivers_agree :
    (∀ (s : Session) (image : Image) (text : List Char) (limit : UInt32) (debugLimit : UInt64),
      let outcome := (simulate image (DataPath.terminated text)
        ⟨Session.registerCount, limit.toUInt64, debugLimit⟩).outcome
      (∀ stored, Image.read stored = .ok image → ∃ s',
        s.loadImage stored text = .ok (image.code.length, s') ∧ (s'.run limit).Agrees outcome) ∧
      ∀ source, Assembly.translate source = .ok image → ∃ s',
        s.loadSource source text = .ok (image.code.length, s') ∧ (s'.run limit).Agrees outcome) ∧
    (∀ (s : Session) (m : Machine), s.machine = some m → ∀ limit : UInt32,
      (∃ n, (∀ k < n, (Session.afterStep^[k] s).IsActive limit) ∧
        ¬ (Session.afterStep^[n] s).IsActive limit ∧ s.run limit = Session.afterStep^[n] s) ∧
      ∀ limit', limit ≤ limit' → (s.run limit).run limit' = s.run limit') ∧
    ∀ (image : Image) (input : List Char) (n : Nat),
      let d := Debugger.ofImage image input
      let m := Machine.load image Debugger.registerCount input
      (Debugger.step^[n] d).machine = m.upTo n ∧ (Debugger.tick^[n] d.run).machine = m.upTo n := by
  refine ⟨fun s image text limit debugLimit => ?_, fun s m hm limit => ?_, fun image input n => ?_⟩
  · have hagrees := s.run_load_agrees image text limit debugLimit
    refine ⟨fun stored hread => ?_, fun source htranslate => ?_⟩
    · exact ⟨s.load image text, by rw [Session.loadImage, hread], hagrees⟩
    · exact ⟨s.load image text, by rw [Session.loadSource, htranslate], hagrees⟩
  · exact ⟨Session.run_eq_afterSteps hm limit, fun _ hle => Session.run_run hm hle⟩
  · exact ⟨Debugger.drives_step.iterate rfl n,
      Debugger.drives_tick.iterate (Debugger.isFree_run image input) n⟩

theorem drivers_agree_loop :
    (∃ s', Session.empty.loadSource ".code\nl:\njmp l".toList [] = .ok (1, s') ∧
      (s'.run 3).Agrees (.ok ⟨[], 3, 3, .tickLimit, true, [0, 0, 0, 0]⟩)) ∧
    ((Session.empty.load ⟨[], [⟨0, .jmp, [0]⟩]⟩ []).run 1).run 3 =
      (Session.empty.load ⟨[], [⟨0, .jmp, [0]⟩]⟩ []).run 3 :=
  ⟨(drivers_agree.1 Session.empty ⟨_, [⟨0, .jmp, [0]⟩]⟩ [] 3 0).2 _ rfl,
    (drivers_agree.2.1 (Session.empty.load ⟨[], [⟨0, .jmp, [0]⟩]⟩ []) _ rfl 1).2 3 (by decide)⟩

end TickMachine
