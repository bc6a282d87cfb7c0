import TickMachine.Proofs.Simulation.Pace
import TickMachine.Proofs.Drivers

/-! Sessions from call to call. A load assigns image, input and machine one after another and can
fail only before the first of them; a session that has halted takes no call but a load or a reset;
and a reset goes back to the last load, whatever was done in between. -/

namespace TickMachine

namespace Simulation

variable {limit : UInt64} {m m' : Machine} {n : Nat} {stop : Except Machine.Fault Stop}

theorem Runs.hasEnded_iff (h : Runs limit m n m' stop) : hasEnded stop ↔
    ∃ k, (m.afterSteps k).ending?.isSome ∧
      ∀ i ≤ k, (m.afterSteps i).tick < limit ∧ (i < k → (m.afterSteps i).ending? = none) := by
  induction h with
  | out hm =>
    refine ⟨nofun, fun ⟨k, _, hbefore⟩ => ?_⟩
    exact absurd (hbefore 0 (Nat.zero_le k)).1 (UInt64.not_lt.2 hm)
  | ended hm hend =>
    refine ⟨fun _ => ⟨0, Option.isSome_of_eq_some hend, fun i hi => ?_⟩, fun _ =>
      hasEnded_of_ending? hend⟩
    obtain rfl : i = 0 := Nat.le_zero.1 hi
    exact ⟨hm, nofun⟩
  | executed hm hnone _ ih =>
    rw [ih]
    constructor
    · rintro ⟨k, hend, hbefore⟩
      refine ⟨k + 1, Machine.afterSteps_next k ▸ hend, fun i hi => ?_⟩
      cases i with
      | zero => exact ⟨hm, fun _ => hnone⟩
      | succ i =>
        rw [← Machine.afterSteps_next]
        exact ⟨(hbefore i (Nat.le_of_succ_le_succ hi)).1, fun hlt =>
          (hbefore i (Nat.le_of_succ_le_succ hi)).2 (Nat.lt_of_succ_lt_succ hlt)⟩
    · rintro ⟨k, hend, hbefore⟩
      obtain ⟨j, rfl⟩ : ∃ j, k = j + 1 := by
        refine Nat.exists_eq_add_one_of_ne_zero ?_
        rintro rfl
        rw [Machine.afterSteps, hnone] at hend
        cases hend
      refine ⟨j, Machine.afterSteps_next j ▸ hend, fun i hi => ?_⟩
      rw [Machine.afterSteps_next]
      exact ⟨(hbefore (i + 1) (Nat.succ_le_succ hi)).1, fun hlt =>
        (hbefore (i + 1) (Nat.succ_le_succ hi)).2 (Nat.succ_lt_succ hlt)⟩

end Simulation

namespace Session

open Simulation

abbrev Action := EStateM Fault Session

def restart : Action Unit := do
  let s ← get
  match Machine.load? s.image registerCount s.input with
  | .ok m => set { s with machine := some m, halted := false }
  | .error fault => throw (.machine (.path fault))

def takeOver (image : Image) (text : List Char) : Action Nat := do
  modify fun s => { s with image }
  modify fun s => { s with input := DataPath.terminated text }
  restart
  return image.code.length

inductive Call
  | loadSource (source text : List Char)
  | loadImage (stored text : List Char)
  | step
  | run (maxTicks : UInt32)
  | reset
  | valueAt (address : Nat)
  | snapshot
  deriving DecidableEq

inductive Reply
  | done
  | count (instructions : Nat)
  | text (text : String)
  | tick (tick : UInt64)
  | value (value : Int64)
  deriving DecidableEq

def resultOf : Except Fault String × Session → EStateM.Result Fault Session Reply
  | (.ok text, s) => .ok (.text text) s
  | (.error fault, s) => .error fault s

def Call.perform : Call → Action Reply
  | .loadSource source text =>
    match Assembly.translate source with
    | .ok image => .count <$> takeOver image text
    | .error fault => throw (.assembly fault)
  | .loadImage stored text =>
    match Image.read stored with
    | .ok image => .count <$> takeOver image text
    | .error fault => throw (.image fault)
  | .step => fun s => resultOf s.step
  | .run maxTicks => do
    modify (·.run maxTicks)
    return .tick (← get).tick
  | .reset => do
    restart
    return .done
  | .valueAt address => return .value ((← get).valueAt address)
  | .snapshot => fun s => resultOf (s.snapshot, s)

def next (s : Session) (c : Call) : Session :=
  match c.perform s with
  | .ok _ s' => s'
  | .error _ s' => s'

def after (s : Session) (calls : List Call) : Session := calls.foldl next s

def Call.isLoad : Call → Bool
  | .loadSource .. | .loadImage .. => true
  | _ => false

def Call.loaded? : Call → Option (Image × List Char)
  | .loadSource source text => (Assembly.translate source).toOption.map (·, text)
  | .loadImage stored text => (Image.read stored).toOption.map (·, text)
  | _ => none

/-- One of the steps that the call makes halts or fails. A run makes steps as long as they begin
below its limit and none has done so. -/
def Call.Ends (s : Session) : Call → Prop
  | .step => ∃ m, s.machine = some m ∧ m.ending?.isSome
  | .run maxTicks => ∃ m k, s.machine = some m ∧ (m.afterSteps k).ending?.isSome ∧
    ∀ i ≤ k, (m.afterSteps i).tick < maxTicks.toUInt64 ∧
      (i < k → (m.afterSteps i).ending? = none)
  | _ => False

variable {s s' : Session} {c : Call} {calls : List Call}

theorem perform_loadSource (s : Session) (source text : List Char) :
    (Call.loadSource source text).perform s = match s.loadSource source text with
      | .ok (count, s') => .ok (.count count) s'
      | .error fault => .error fault s := by
  rw [Call.perform, loadSource]
  cases Assembly.translate source <;> rfl

theorem perform_loadImage (s : Session) (stored text : List Char) :
    (Call.loadImage stored text).perform s = match s.loadImage stored text with
      | .ok (count, s') => .ok (.count count) s'
      | .error fault => .error fault s := by
  rw [Call.perform, loadImage]
  cases Image.read stored <;> rfl

theorem perform_run (s : Session) (maxTicks : UInt32) :
    (Call.run maxTicks).perform s = .ok (.tick (s.run maxTicks).tick) (s.run maxTicks) := rfl

theorem perform_reset (s : Session) : Call.reset.perform s = .ok .done s.reset := rfl

theorem next_of_resultOf {answer : Except Fault String × Session}
    (h : c.perform s = resultOf answer) : s.next c = answer.2 := by
  obtain ⟨text | fault, s'⟩ := answer <;> rw [next, h] <;> rfl

theorem next_step (s : Session) : s.next .step = s.afterStep := next_of_resultOf rfl

theorem next_snapshot (s : Session) : s.next .snapshot = s := by
  have hperform : Call.snapshot.perform s = resultOf (s.snapshot, s) := rfl
  exact next_of_resultOf hperform

theorem perform_load (s : Session) (hc : c.isLoad) : match c.loaded? with
    | some (image, text) => c.perform s = .ok (.count image.code.length) (s.load image text)
    | none => ∃ fault, c.perform s = .error fault s := by
  cases c with
  | loadSource source text =>
    rw [perform_loadSource, Call.loaded?, loadSource]
    cases Assembly.translate source with
    | ok image => rfl
    | error fault => exact ⟨_, rfl⟩
  | loadImage stored text =>
    rw [perform_loadImage, Call.loaded?, loadImage]
    cases Image.read stored with
    | ok image => rfl
    | error fault => exact ⟨_, rfl⟩
  | _ => cases hc

theorem next_of_load {image : Image} {text : List Char} (hload : c.loaded? = some (image, text)) :
    s.next c = s.load image text := by
  have hc : c.isLoad := by cases c <;> first | rfl | cases hload
  have hperform := perform_load s hc
  rw [hload] at hperform
  rw [next, hperform]

theorem next_of_failed_load (hc : c.isLoad) (hload : c.loaded? = none) : s.next c = s := by
  have hperform := perform_load s hc
  rw [hload] at hperform
  obtain ⟨fault, hperform⟩ := hperform
  rw [next, hperform]

/-! ### Halted sessions -/

theorem step_of_halted (hs : s.halted) : s.step = (.error .halted, s) := if_pos hs

theorem next_of_halted (hs : s.halted) (hreset : c ≠ .reset) (hload : c.loaded? = none) :
    s.next c = s := by
  cases c with
  | step => rw [next_step, afterStep, step_of_halted hs]
  | run maxTicks => exact run_of_halted hs
  | reset => exact absurd rfl hreset
  | valueAt address => rfl
  | snapshot => exact s.next_snapshot
  | _ => exact next_of_failed_load rfl hload

theorem after_of_halted (hs : s.halted) (hcalls : ∀ c ∈ calls, c ≠ .reset ∧ c.loaded? = none) :
    s.after calls = s := by
  induction calls with
  | nil => rfl
  | cons c calls ih =>
    obtain ⟨⟨hreset, hload⟩, hrest⟩ := List.forall_mem_cons.1 hcalls
    rw [after, List.foldl_cons, next_of_halted hs hreset hload]
    exact ih hrest

theorem halted_afterStep_iff (hs : s.halted = false) :
    s.afterStep.halted ↔ Call.step.Ends s := by
  unfold Call.Ends
  cases hm : s.machine with
  | none =>
    have hstep : s.step = (.error .notLoaded, s) := by
      rw [step, hs, hm]
      rfl
    rw [afterStep, hstep, hs]
    simp
  | some m =>
    rw [afterStep_eq hs hm]
    simp

theorem halted_run_iff (hs : s.halted = false) (maxTicks : UInt32) :
    (s.run maxTicks).halted ↔ (Call.run maxTicks).Ends s := by
  unfold Call.Ends
  cases hm : s.machine with
  | none =>
    have hrun : s.run maxTicks = s := by
      rw [run, hs, hm]
      rfl
    rw [hrun, hs]
    simp
  | some m =>
    obtain ⟨n, m', stop, hruns⟩ := exists_runs (limit_le maxTicks) m
    rw [run_of_runs hs hm hruns]
    simpa using hruns.hasEnded_iff

theorem halted_next_iff (hs : s.halted = false) (c : Call) : (s.next c).halted ↔ c.Ends s := by
  have hstays {s' : Session} (h : s'.halted = false) : s'.halted ↔ False := by simp [h]
  cases hload : c.loaded? with
  | some loaded =>
    rw [next_of_load hload]
    cases c <;> first | exact hstays rfl | cases hload
  | none =>
    cases c with
    | step => exact s.next_step ▸ halted_afterStep_iff hs
    | run maxTicks => exact halted_run_iff hs maxTicks
    | reset => exact hstays rfl
    | valueAt address => exact hstays hs
    | snapshot =>
      rw [next_snapshot]
      exact hstays hs
    | _ =>
      rw [next_of_failed_load rfl hload]
      exact hstays hs

/-! ### The last load -/

theorem afterStep_loaded (s : Session) :
    s.afterStep.image = s.image ∧ s.afterStep.input = s.input := by
  unfold afterStep step
  split
  · exact ⟨rfl, rfl⟩
  · split
    · exact ⟨rfl, rfl⟩
    · dsimp only
      split <;> exact ⟨rfl, rfl⟩

theorem run_loaded (s : Session) (maxTicks : UInt32) :
    (s.run maxTicks).image = s.image ∧ (s.run maxTicks).input = s.input := by
  unfold run
  split
  · exact ⟨rfl, rfl⟩
  · split <;> exact ⟨rfl, rfl⟩

theorem next_loaded (s : Session) (hload : c.loaded? = none) :
    (s.next c).image = s.image ∧ (s.next c).input = s.input := by
  cases c with
  | step => exact s.next_step ▸ s.afterStep_loaded
  | run maxTicks => exact s.run_loaded maxTicks
  | reset => exact ⟨rfl, rfl⟩
  | valueAt address => exact ⟨rfl, rfl⟩
  | snapshot =>
    rw [next_snapshot]
    exact ⟨rfl, rfl⟩
  | _ =>
    rw [next_of_failed_load rfl hload]
    exact ⟨rfl, rfl⟩

theorem after_loaded (s : Session) (hcalls : ∀ c ∈ calls, c.loaded? = none) :
    (s.after calls).image = s.image ∧ (s.after calls).input = s.input := by
  induction calls generalizing s with
  | nil => exact ⟨rfl, rfl⟩
  | cons c calls ih =>
    obtain ⟨hload, hrest⟩ := List.forall_mem_cons.1 hcalls
    have hnext := s.next_loaded hload
    have hafter := ih (s.next c) hrest
    exact ⟨hafter.1.trans hnext.1, hafter.2.trans hnext.2⟩

theorem reset_congr (himage : s'.image = s.image) (hinput : s'.input = s.input) :
    s'.reset = s.reset := by
  obtain ⟨machine, image, input, halted⟩ := s
  obtain ⟨machine', image', input', halted'⟩ := s'
  obtain rfl : image' = image := himage
  obtain rfl : input' = input := hinput
  rfl

theorem reset_load (s : Session) (image : Image) (text : List Char) :
    (s.load image text).reset = s.load image text := rfl

theorem reset_after_load (s : Session) (before : List Call) (hload : c.loaded?.isSome)
    (hcalls : ∀ c ∈ calls, c.loaded? = none) :
    (s.after (before ++ c :: calls)).reset = s.after (before ++ [c]) := by
  obtain ⟨⟨image, text⟩, hload⟩ := Option.isSome_iff_exists.1 hload
  have hfirst : s.after (before ++ [c]) = (s.after before).load image text := by
    rw [after, List.foldl_append]
    exact next_of_load hload
  -- What comes after the load leaves the image and the input, and these are all a reset looks at.
  have hlater : s.after (before ++ c :: calls) = (s.after (before ++ [c])).after calls := by
    rw [List.append_cons, after, List.foldl_append]
    rfl
  obtain ⟨himage, hinput⟩ := after_loaded (s.after (before ++ [c])) hcalls
  rw [hlater, reset_congr himage hinput, hfirst, reset_load]

/-- Loads take place completely or not at all, a session that has halted stays as it is until a load
or a reset, only a step that ends the machine halts it, and a reset gives back the session right
after the last load. -/
theorem halted_until_restart (s : Session) :
    (∀ c : Call, c.isLoad → match c.loaded? with
      | some (image, text) => c.perform s = .ok (.count image.code.length) (s.load image text)
      | none => ∃ fault, c.perform s = .error fault s) ∧
    (s.halted → ∀ calls, (∀ c ∈ calls, c ≠ .reset ∧ c.loaded? = none) →
      s.after calls = s ∧ Call.step.perform s = .error .halted s ∧
      ∀ maxTicks, (Call.run maxTicks).perform s = .ok (.tick s.tick) s) ∧
    (s.halted = false → ∀ c, (s.next c).halted ↔ c.Ends s) ∧
    ∀ before c later, c.loaded?.isSome → (∀ c' ∈ later, c'.loaded? = none) →
      Call.reset.perform (s.after (before ++ c :: later)) =
        .ok .done (s.after (before ++ [c])) := by
  refine ⟨fun c => perform_load s, fun hs calls hcalls => ⟨after_of_halted hs hcalls, ?_, ?_⟩,
    fun hs => halted_next_iff hs, fun before c later hload hlater => ?_⟩
  · show resultOf s.step = _
    rw [step_of_halted hs]
    rfl
  · intro maxTicks
    rw [perform_run, run_of_halted hs]
  · rw [perform_reset, reset_after_load s before hload hlater]

theorem halted_until_restart_hlt :
    let load := Call.loadSource ".code\nhlt".toList []
    let s := empty.after [load, .run 9]
    s.halted ∧ (empty.after [load]).halted = false ∧ (Call.run 9).Ends (empty.after [load]) ∧
    s.after [.step, .loadImage ['['] [], .run 10] = s ∧
    Call.reset.perform (empty.after [load, .run 9, .loadImage ['['] []]) =
      .ok .done (empty.after [load]) := by
  intro load s
  have hhalted : s.halted := rfl
  have hactive : (empty.after [load]).halted = false := rfl
  exact ⟨hhalted, hactive, ((halted_until_restart _).2.2.1 hactive (.run 9)).1 hhalted,
    ((halted_until_restart s).2.1 hhalted [.step, .loadImage ['['] [], .run 10] (by decide)).1,
    (halted_until_restart empty).2.2.2 [] load [.run 9, .loadImage ['['] []] rfl (by decide)⟩

end Session
end TickMachine
