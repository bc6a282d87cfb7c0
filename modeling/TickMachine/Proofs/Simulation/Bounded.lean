import TickMachine.Proofs.Machine.Growth
import TickMachine.Proofs.Machine.Reach
import TickMachine.Proofs.Simulation.Ports

/-! Bounded runs as a relation, apart from the fuel of the loop that carries them out, and what the
loop logs of them. A run that has ended before its limit does not depend on it, and one that has
reached its limit is the beginning of the run with a higher one. -/

namespace TickMachine

namespace Machine

open Simulation (Stop Ending)

def ending? (m : Machine) : Option (Except Fault Stop) :=
  match step m with
  | .ok (.executed _) _ => none
  | .ok .halted _ => some (.ok .halted)
  | .error fault _ => some (if fault.isEndOfInput then .ok .endOfInput else .error fault)

variable {m : Machine} {stop : Except Fault Stop}

theorem isEndOfInput_iff {fault : Fault} : fault.isEndOfInput ↔ fault = .path .endOfInput :=
  beq_iff_eq

theorem ending?_eq_none_iff : m.ending? = none ↔ ∃ op, step m = .ok (.executed op) m.next := by
  unfold ending? next
  cases step m with
  | ok o m' => cases o <;> simp
  | error fault m' => simp

theorem ending?_cases (h : m.ending? = some stop) :
    stop = .ok .halted ∧ step m = .ok .halted m.next ∨
    stop = .ok .endOfInput ∧ step m = .error (.path .endOfInput) m.next ∨
    ∃ fault, stop = .error fault ∧ step m = .error fault m.next := by
  rw [ending?] at h
  rw [next]
  cases hstep : step m with
  | ok o m' =>
    rw [hstep] at h
    cases o with
    | executed op => cases h
    | halted => exact .inl ⟨(Option.some.inj h).symm, rfl⟩
  | error fault m' =>
    rw [hstep] at h
    obtain rfl := Option.some.inj h
    by_cases hend : fault.isEndOfInput
    · rw [isEndOfInput_iff.1 hend]
      exact .inr (.inl ⟨rfl, rfl⟩)
    · exact .inr (.inr ⟨fault, if_neg hend, rfl⟩)

theorem ending?_ne_tickLimit : m.ending? ≠ some (.ok .tickLimit) := by
  intro h
  obtain ⟨hstop, -⟩ | ⟨hstop, -⟩ | ⟨fault, hstop, -⟩ := ending?_cases h
  · cases hstop
  · cases hstop
  · cases hstop

theorem next_grows (ht : m.tick.toNat ≤ UInt64.size - 5) : Grows m m.next := by
  have hstep := step_grows ht
  cases h : step m with
  | ok o m' => rw [next, h]; exact hstep.1 _ _ h
  | error fault m' => rw [next, h]; exact hstep.2 _ _ h

theorem tick_lt_next (ht : m.tick.toNat ≤ UInt64.size - 5) (h : m.ending? = none) :
    m.tick.toNat < m.next.tick.toNat := by
  obtain ⟨op, hstep⟩ := ending?_eq_none_iff.1 h
  exact tick_lt_of_executed ht hstep

theorem next_of_halted (h : m.ending? = some (.ok .halted)) : m.next = m := by
  obtain ⟨-, hstep⟩ | ⟨hstop, -⟩ | ⟨fault, hstop, -⟩ := ending?_cases h
  · exact step_halted hstep
  · cases hstop
  · cases hstop

/-- The same for a run whose clock does not begin again. -/
def clockedEnding? (m : Machine) : Option Ending :=
  if m.next.tick < m.tick then some .clockOverflow else m.ending?.map .stopped

theorem clockedEnding?_of_le (h : m.tick ≤ m.next.tick) :
    m.clockedEnding? = m.ending?.map .stopped := if_neg (UInt64.not_lt.2 h)

theorem tick_lt_of_clockedEnding? (h : m.clockedEnding? = none) :
    m.tick < m.next.tick ∧ m.ending? = none := by
  unfold clockedEnding? at h
  split at h
  · cases h
  · next hclock =>
    have hending : m.ending? = none := Option.map_eq_none_iff.1 h
    obtain ⟨op, hstep⟩ := ending?_eq_none_iff.1 hending
    obtain ⟨hcost, htick⟩ := tick_of_executed hstep
    have hne : m.tick ≠ m.next.tick := by
      intro heq
      have hle := op.cost_le
      have hadd := congrArg UInt64.toNat (heq.trans htick)
      rw [UInt64.toNat_add, UInt64.toNat_ofNat'] at hadd
      have hlt := m.tick.toNat_lt
      omega
    exact ⟨UInt64.lt_of_le_of_ne (UInt64.not_lt.1 hclock) hne, hending⟩

end Machine

namespace Simulation

open Machine (Grows)

/-- The run from `m` under `limit` begins `n` steps, leaves `m'` and ends in `stop`. -/
inductive Runs (limit : UInt64) : Machine → Nat → Machine → Except Machine.Fault Stop → Prop
  | out {m : Machine} (h : limit ≤ m.tick) : Runs limit m 0 m (.ok .tickLimit)
  | ended {m : Machine} {stop : Except Machine.Fault Stop} (hm : m.tick < limit)
      (h : m.ending? = some stop) : Runs limit m 1 m.next stop
  | executed {m m' : Machine} {n : Nat} {stop : Except Machine.Fault Stop} (hm : m.tick < limit)
      (h : m.ending? = none) (hrun : Runs limit m.next n m' stop) : Runs limit m (n + 1) m' stop

variable {limit limit₁ limit₂ : UInt64} {m m' m₁ : Machine} {ms : List Machine} {n k fuel : Nat}
  {stop : Except Machine.Fault Stop}

theorem Runs.raise (h : Runs limit₁ m n m' stop) (hle : limit₁ ≤ limit₂)
    (hstop : stop ≠ .ok .tickLimit) : Runs limit₂ m n m' stop := by
  induction h with
  | out => exact absurd rfl hstop
  | ended hm hend => exact .ended (UInt64.lt_of_lt_of_le hm hle) hend
  | executed hm hnone _ ih => exact .executed (UInt64.lt_of_lt_of_le hm hle) hnone (ih hstop)

/-- Under a higher limit, a run goes on from where the lower one has ended it. -/
theorem Runs.resume (h : Runs limit₁ m n m₁ (.ok .tickLimit)) (hle : limit₁ ≤ limit₂)
    (h' : Runs limit₂ m k m' stop) : ∃ j, k = n + j ∧ Runs limit₂ m₁ j m' stop := by
  generalize hs : Except.ok Stop.tickLimit = stop₁ at h
  -- Induction on the shorter run, whose steps the longer one has to make too.
  induction h generalizing k with
  | out => exact ⟨k, (Nat.zero_add k).symm, h'⟩
  | ended _ hend => exact absurd (hs ▸ hend) Machine.ending?_ne_tickLimit
  | executed hm hnone _ ih =>
    cases h' with
    | out hm' => exact absurd (UInt64.lt_of_lt_of_le hm hle) (UInt64.not_lt.2 hm')
    | ended _ hend' => cases hnone.symm.trans hend'
    | executed _ _ hrun' =>
      obtain ⟨j, rfl, hj⟩ := ih hrun' hs
      exact ⟨j, by omega, hj⟩

theorem Runs.tick_lt (h : Runs limit m n m' (.ok .halted)) : m'.tick < limit := by
  generalize hs : Except.ok Stop.halted = stop at h
  induction h with
  | out => cases hs
  | ended hm hend =>
    subst hs
    rwa [Machine.next_of_halted hend]
  | executed _ _ _ ih => exact ih hs

theorem tick_le_of_lt (hmax : limit.toNat ≤ UInt64.size - 4) (hm : m.tick < limit) :
    m.tick.toNat ≤ UInt64.size - 5 := by
  have hlt := UInt64.lt_iff_toNat_lt.1 hm
  omega

theorem Runs.grows (hmax : limit.toNat ≤ UInt64.size - 4) (h : Runs limit m n m' stop) :
    Grows m m' := by
  induction h with
  | out => exact .refl _
  | ended hm => exact Machine.next_grows (tick_le_of_lt hmax hm)
  | executed hm _ _ ih => exact (Machine.next_grows (tick_le_of_lt hmax hm)).trans ih

/-! ### What a run goes through -/

/-- The run from `m` under `limit` is at the machines `ms` after its executed instructions, leaves
`m'` and comes to the end `ending`. -/
inductive Traces (limit : UInt64) : Machine → List Machine → Machine → Ending → Prop
  | out {m : Machine} (h : limit ≤ m.tick) : Traces limit m [] m (.stopped (.ok .tickLimit))
  | ended {m : Machine} {ending : Ending} (hm : m.tick < limit)
      (h : m.clockedEnding? = some ending) : Traces limit m [] m.next ending
  | executed {m m' : Machine} {ms : List Machine} {ending : Ending} (hm : m.tick < limit)
      (h : m.clockedEnding? = none) (hrun : Traces limit m.next ms m' ending) :
      Traces limit m (m.next :: ms) m' ending

variable {ending : Ending}

def begun (ms : List Machine) : Ending → Nat
  | .stopped (.ok .tickLimit) => ms.length
  | _ => ms.length + 1

theorem begun_of_ne (h : ending ≠ .stopped (.ok .tickLimit)) : begun ms ending = ms.length + 1 := by
  match ending with
  | .clockOverflow => rfl
  | .stopped (.error fault) => rfl
  | .stopped (.ok .halted) => rfl
  | .stopped (.ok .endOfInput) => rfl
  | .stopped (.ok .tickLimit) => exact absurd rfl h

theorem begun_cons : begun (m :: ms) ending = begun ms ending + 1 := by
  by_cases h : ending = .stopped (.ok .tickLimit)
  · subst h
    rfl
  · rw [begun_of_ne h, begun_of_ne h, List.length_cons]

theorem begun_of_clockedEnding? (h : m.clockedEnding? = some ending) :
    begun ms ending = ms.length + 1 := by
  refine begun_of_ne ?_
  rintro rfl
  unfold Machine.clockedEnding? at h
  split at h
  · cases h
  · obtain ⟨stop, hstop, hsome⟩ := Option.map_eq_some_iff.1 h
    exact Machine.ending?_ne_tickLimit (Ending.stopped.inj hsome ▸ hstop)

theorem exists_traces (limit : UInt64) (m : Machine) :
    ∃ ms m' ending, Traces limit m ms m' ending := by
  generalize hleft : limit.toNat - m.tick.toNat = left
  induction left using Nat.strongRecOn generalizing m with
  | ind left ih =>
    by_cases hm : limit ≤ m.tick
    · exact ⟨[], m, _, .out hm⟩
    · have hlt := UInt64.not_le.1 hm
      cases hending : m.clockedEnding? with
      | some ending => exact ⟨[], m.next, ending, .ended hlt hending⟩
      | none =>
        have htick := UInt64.lt_iff_toNat_lt.1 (Machine.tick_lt_of_clockedEnding? hending).1
        have hlimit := UInt64.lt_iff_toNat_lt.1 hlt
        obtain ⟨ms, m', ending, htrace⟩ := ih _ (by omega) m.next rfl
        exact ⟨_, m', ending, .executed hlt hending htrace⟩

theorem Traces.begun_le (h : Traces limit m ms m' ending) :
    begun ms ending ≤ limit.toNat - m.tick.toNat := by
  induction h with
  | out => exact Nat.zero_le _
  | ended hm hending =>
    rw [begun_of_clockedEnding? hending]
    exact Nat.sub_pos_of_lt (UInt64.lt_iff_toNat_lt.1 hm)
  | executed hm hnone _ ih =>
    have htick := UInt64.lt_iff_toNat_lt.1 (Machine.tick_lt_of_clockedEnding? hnone).1
    have hlt := UInt64.lt_iff_toNat_lt.1 hm
    rw [begun_cons]
    omega

theorem Traces.pairwise (h : Traces limit m ms m' ending) :
    (m :: ms).Pairwise fun m₁ m₂ => m₁.tick < m₂.tick := by
  induction h with
  | out => exact List.pairwise_singleton ..
  | ended => exact List.pairwise_singleton ..
  | executed _ hnone _ ih =>
    have hlt := (Machine.tick_lt_of_clockedEnding? hnone).1
    refine .cons (fun m₂ hmem => ?_) ih
    rcases List.mem_cons.1 hmem with rfl | hmem
    · exact hlt
    · exact UInt64.lt_trans hlt ((List.pairwise_cons.1 ih).1 m₂ hmem)

theorem clockedEnding?_of_lt (hmax : limit.toNat ≤ UInt64.size - 4) (hm : m.tick < limit) :
    m.clockedEnding? = m.ending?.map .stopped :=
  Machine.clockedEnding?_of_le
    (UInt64.le_iff_toNat_le.2 (Machine.next_grows (tick_le_of_lt hmax hm)).tick)

theorem Runs.exists_traces (hmax : limit.toNat ≤ UInt64.size - 4) (h : Runs limit m n m' stop) :
    ∃ ms, Traces limit m ms m' (.stopped stop) ∧ begun ms (.stopped stop) = n := by
  induction h with
  | out hm => exact ⟨[], .out hm, rfl⟩
  | ended hm hend =>
    have hending := clockedEnding?_of_lt hmax hm
    rw [hend, Option.map_some] at hending
    exact ⟨[], .ended hm hending, begun_of_clockedEnding? hending⟩
  | executed hm hnone _ ih =>
    have hending := clockedEnding?_of_lt hmax hm
    rw [hnone, Option.map_none] at hending
    obtain ⟨ms, htrace, rfl⟩ := ih
    exact ⟨_, .executed hm hending htrace, begun_cons⟩

theorem Traces.exists_runs (hmax : limit.toNat ≤ UInt64.size - 4)
    (h : Traces limit m ms m' ending) :
    ∃ stop, ending = .stopped stop ∧ Runs limit m (begun ms ending) m' stop := by
  induction h with
  | out hm => exact ⟨_, rfl, .out hm⟩
  | ended hm hend =>
    rw [begun_of_clockedEnding? hend]
    rw [clockedEnding?_of_lt hmax hm] at hend
    obtain ⟨stop, hstop, rfl⟩ := Option.map_eq_some_iff.1 hend
    exact ⟨stop, rfl, .ended hm hstop⟩
  | executed hm hnone _ ih =>
    rw [begun_cons]
    rw [clockedEnding?_of_lt hmax hm, Option.map_eq_none_iff] at hnone
    obtain ⟨stop, rfl, hrun⟩ := ih
    exact ⟨stop, rfl, .executed hm hnone hrun⟩

theorem Runs.count_le (hmax : limit.toNat ≤ UInt64.size - 4) (h : Runs limit m n m' stop) :
    n ≤ limit.toNat - m.tick.toNat := by
  obtain ⟨ms, htrace, rfl⟩ := h.exists_traces hmax
  exact htrace.begun_le

theorem exists_runs (hmax : limit.toNat ≤ UInt64.size - 4) (m : Machine) :
    ∃ n m' stop, Runs limit m n m' stop := by
  obtain ⟨ms, m', ending, htrace⟩ := exists_traces limit m
  obtain ⟨stop, -, hrun⟩ := htrace.exists_runs hmax
  exact ⟨_, m', stop, hrun⟩

/-! ### The loop -/

def stepEvents (debugLimit : UInt64) (m m' : Machine) : List Event :=
  portEvents m m' ++ clockEvent debugLimit m'

def traceEvents (debugLimit : UInt64) : Machine → List Machine → List Event
  | _, [] => []
  | m, m' :: ms => stepEvents debugLimit m m' ++ traceEvents debugLimit m' ms

def endEvents (m : Machine) : Ending → List Event
  | .stopped (.ok .endOfInput) => [.inputEmpty]
  | .clockOverflow =>
    match m.step with
    | .ok _ m' => portEvents m m'
    | .error _ _ => []
  | _ => []

def roundEvents (debugLimit : UInt64) (m : Machine) : List Event :=
  match m.clockedEnding? with
  | none => stepEvents debugLimit m m.next
  | some ending => endEvents m ending

theorem append_events (events : Array Event) (es es' : List Event) :
    events ++ (es ++ es') = events ++ es ++ es' := by
  apply Array.toList_inj.1
  simp

theorem next_eq (debugLimit : UInt64) (instructions : Nat) (events : Array Event) :
    Progress.next debugLimit ⟨m, instructions, events⟩ =
      (⟨m.next, instructions + 1, events ++ roundEvents debugLimit m⟩, m.clockedEnding?) := by
  rw [Progress.next, step_apply, roundEvents]
  cases hstep : m.step with
  | ok o m' =>
    have hnext : m.next = m' := by rw [Machine.next, hstep]
    cases o with
    | executed op =>
      have hending : m.ending? = none := by rw [Machine.ending?, hstep]
      by_cases hclock : m'.tick < m.tick
      · simp [Machine.clockedEnding?, hnext, hclock, logged, Progress.afterStep, endEvents, hstep]
      · simp [Machine.clockedEnding?, hnext, hending, hclock, logged, Progress.afterStep,
          stepEvents, append_events]
    | halted =>
      have hending : m.ending? = some (.ok .halted) := by rw [Machine.ending?, hstep]
      have hclock : m.tick ≤ m.next.tick := by
        rw [Machine.next_of_halted hending]
        exact UInt64.le_refl _
      simp [Machine.clockedEnding?_of_le hclock, hnext, hending, logged, Progress.afterStep,
        endEvents, portEvents_of_halted hstep]
  | error fault m' =>
    have hnext : m.next = m' := by rw [Machine.next, hstep]
    by_cases hclock : m'.tick < m.tick
    · simp [Machine.clockedEnding?, hnext, hclock, logged, Progress.afterStep, endEvents, hstep]
    · by_cases hfault : fault.isEndOfInput
      · simp [Machine.clockedEnding?, Machine.ending?, hstep, hnext, hclock, hfault, logged,
          Progress.afterStep, endEvents]
      · simp [Machine.clockedEnding?, Machine.ending?, hstep, hnext, hclock, hfault, logged,
          Progress.afterStep, endEvents]

theorem loop_succ {config : Config} (hm : m.tick < config.limit) (fuel n : Nat)
    (events : Array Event) : loop config (fuel + 1) ⟨m, n, events⟩ =
      match m.clockedEnding? with
      | none => loop config fuel ⟨m.next, n + 1, events ++ roundEvents config.debugLimit m⟩
      | some ending => (⟨m.next, n + 1, events ++ roundEvents config.debugLimit m⟩, ending) := by
  rw [loop, if_neg (UInt64.not_le.2 hm), next_eq]
  cases m.clockedEnding? <;> rfl

theorem loop_of_traces (config : Config) (h : Traces config.limit m ms m' ending)
    (hfuel : begun ms ending ≤ fuel) (instructions : Nat) (events : Array Event) :
    loop config fuel ⟨m, instructions, events⟩ =
      (⟨m', instructions + begun ms ending, events ++
        (traceEvents config.debugLimit m ms ++ endEvents (ms.getLastD m) ending)⟩, ending) := by
  induction h generalizing fuel instructions events with
  | @out m hm =>
    have hquiet : events ++ (traceEvents config.debugLimit m [] ++
        endEvents ([].getLastD m) (.stopped (.ok .tickLimit))) = events := Array.appendList_nil
    rw [hquiet]
    cases fuel with
    | zero => rfl
    | succ fuel => exact if_pos hm
  | ended hm hend =>
    rw [begun_of_clockedEnding? hend] at hfuel ⊢
    obtain ⟨fuel, rfl⟩ := Nat.exists_eq_add_one_of_ne_zero (Nat.ne_of_gt hfuel)
    rw [loop_succ hm, roundEvents, hend]
    rfl
  | executed hm hnone _ ih =>
    rw [begun_cons] at hfuel ⊢
    obtain ⟨fuel, rfl⟩ := Nat.exists_eq_add_one_of_ne_zero (Nat.ne_of_gt (Nat.zero_lt_of_lt hfuel))
    rw [loop_succ hm, roundEvents, hnone]
    dsimp only
    rw [ih (Nat.le_of_succ_le_succ hfuel), traceEvents, List.append_assoc, List.getLastD_cons,
      append_events _ (stepEvents ..), Nat.add_assoc, Nat.add_comm 1]

def outcomeOf (limit : UInt64) (n : Nat) (m : Machine) :
    Except Machine.Fault Stop → Except Fault Report
  | .error fault => .error (.machine m.tick m.counter fault)
  | .ok stop => .ok {
      output := m.path.output.toList
      instructions := n
      ticks := m.tick
      stop
      limitReached := limit ≤ m.tick
      registers := m.path.registers.toList }

def Ending.outcome (limit : UInt64) (n : Nat) (m : Machine) : Ending → Except Fault Report
  | .stopped stop => outcomeOf limit n m stop
  | .clockOverflow => .error .clockOverflow

def closing (config : Config) : Except Fault Report → List Event
  | .error _ => []
  | .ok r => closingEvents config r

variable {image : Image} {input : List Char} {registers : Nat} {debugLimit : UInt64}
  {config : Config}

theorem simulate_of_traces (hr : config.registers ≠ 0)
    (h : Traces config.limit (.load image config.registers input) ms m' ending) :
    simulate image input config =
      ⟨.started :: (traceEvents config.debugLimit (.load image config.registers input) ms ++
        (endEvents (ms.getLastD (.load image config.registers input)) ending ++
          closing config (ending.outcome config.limit (begun ms ending) m'))),
      ending.outcome config.limit (begun ms ending) m'⟩ := by
  have hload : Machine.load? image config.registers input =
      .ok (.load image config.registers input) := if_neg hr
  have hfuel : begun ms ending ≤ config.limit.toNat := Nat.le_trans h.begun_le (Nat.sub_le _ _)
  rw [simulate, hload]
  dsimp only
  rw [loop_of_traces config h hfuel, Nat.zero_add]
  match ending with
  | .clockOverflow => simp [Ending.outcome, closing]
  | .stopped (.error fault) => simp [Ending.outcome, outcomeOf, closing]
  | .stopped (.ok stop) => simp [Ending.outcome, outcomeOf, closing, report]

theorem outcome_of_traces (hr : registers ≠ 0)
    (h : Traces limit (.load image registers input) ms m' ending) :
    (simulate image input ⟨registers, limit, debugLimit⟩).outcome =
      ending.outcome limit (begun ms ending) m' := by
  have hrun : simulate image input ⟨registers, limit, debugLimit⟩ = _ := simulate_of_traces hr h
  rw [hrun]

theorem outcome_of_runs (hmax : limit.toNat ≤ UInt64.size - 4) (hr : registers ≠ 0)
    (h : Runs limit (.load image registers input) n m stop) :
    (simulate image input ⟨registers, limit, debugLimit⟩).outcome = outcomeOf limit n m stop := by
  obtain ⟨ms, htrace, rfl⟩ := h.exists_traces hmax
  exact outcome_of_traces hr htrace

/-! ### Higher limits -/

/-- How an outcome under the limit `limit` is related to one under a lower limit. -/
def Extends (limit : UInt64) (lower higher : Except Fault Report) : Prop :=
  match lower with
  | .error fault => higher = .error fault
  | .ok r =>
    match r.stop with
    | .halted => higher = .ok r
    | .endOfInput => higher = .ok { r with limitReached := limit ≤ r.ticks }
    | .tickLimit => ∀ r', higher = .ok r' →
      r.output <+: r'.output ∧ r.instructions ≤ r'.instructions ∧ r.ticks ≤ r'.ticks

theorem extends_of_tickLimit (hle : limit₁ ≤ limit₂) (hmax : limit₂.toNat ≤ UInt64.size - 4)
    (h : Runs limit₁ m n m₁ (.ok .tickLimit)) (h' : Runs limit₂ m k m' stop) :
    Extends limit₂ (outcomeOf limit₁ n m₁ (.ok .tickLimit)) (outcomeOf limit₂ k m' stop) := by
  obtain ⟨j, rfl, hlater⟩ := h.resume hle h'
  have hgrow := hlater.grows hmax
  intro r' hr'
  cases stop with
  | error fault => cases hr'
  | ok stop =>
    obtain rfl := Except.ok.inj hr'
    exact ⟨hgrow.output, Nat.le_add_right n j, UInt64.le_iff_toNat_le.2 hgrow.tick⟩

theorem extends_of_ended (hle : limit₁ ≤ limit₂) (h : Runs limit₁ m n m' stop)
    (hstop : stop ≠ .ok .tickLimit) :
    Extends limit₂ (outcomeOf limit₁ n m' stop) (outcomeOf limit₂ n m' stop) := by
  match stop with
  | .error fault => rfl
  | .ok .tickLimit => exact absurd rfl hstop
  | .ok .endOfInput => rfl
  | .ok .halted =>
    have h₁ : ¬ limit₁ ≤ m'.tick := UInt64.not_le.2 h.tick_lt
    have h₂ : ¬ limit₂ ≤ m'.tick := fun hlimit => h₁ (UInt64.le_trans hle hlimit)
    show Except.ok _ = Except.ok _
    simp only [h₁, h₂]

/-- Raising the limit of a run only extends it, and the debug limit is about the log alone. -/
theorem simulate_raise (image : Image) (input : List Char) (registers : Nat)
    (debug₁ debug₂ : UInt64) (hle : limit₁ ≤ limit₂) (hmax : limit₂.toNat ≤ UInt64.size - 4) :
    (simulate image input ⟨registers, limit₁, debug₁⟩).outcome =
      (simulate image input ⟨registers, limit₁, debug₂⟩).outcome ∧
    Extends limit₂ (simulate image input ⟨registers, limit₁, debug₁⟩).outcome
      (simulate image input ⟨registers, limit₂, debug₂⟩).outcome := by
  by_cases hr : registers = 0
  · subst hr
    exact ⟨rfl, rfl⟩
  · have hmax₁ := Nat.le_trans (UInt64.le_iff_toNat_le.1 hle) hmax
    obtain ⟨n, m, stop, hrun⟩ := exists_runs hmax₁ (.load image registers input)
    rw [outcome_of_runs hmax₁ hr hrun, outcome_of_runs hmax₁ hr hrun]
    refine ⟨rfl, ?_⟩
    by_cases hstop : stop = .ok .tickLimit
    · subst hstop
      obtain ⟨k, m', stop', hrun'⟩ := exists_runs hmax (.load image registers input)
      rw [outcome_of_runs hmax hr hrun']
      exact extends_of_tickLimit hle hmax hrun hrun'
    · rw [outcome_of_runs hmax hr (hrun.raise hle hstop)]
      exact extends_of_ended hle hrun hstop

theorem simulate_raise_read :
    (simulate ⟨[], [⟨0, .mov, [0, 1]⟩, ⟨1, .loadV, [0, 0]⟩]⟩ [] ⟨1, 2, 0⟩).outcome =
      .ok ⟨[], 2, 2, .endOfInput, true, [1]⟩ ∧
    (simulate ⟨[], [⟨0, .mov, [0, 1]⟩, ⟨1, .loadV, [0, 0]⟩]⟩ [] ⟨1, 3, 9⟩).outcome =
      .ok ⟨[], 2, 2, .endOfInput, false, [1]⟩ ∧
    (simulate ⟨[], [⟨0, .number, [0]⟩]⟩ [] ⟨1, 3, 9⟩).outcome =
      .error (.machine 0 0 (.notAnInstruction .number 0)) :=
  have hle : (2 : UInt64) ≤ 3 := by decide
  ⟨rfl, (simulate_raise ⟨[], [⟨0, .mov, [0, 1]⟩, ⟨1, .loadV, [0, 0]⟩]⟩ [] 1 0 9 hle (by decide)).2,
    (simulate_raise ⟨[], [⟨0, .number, [0]⟩]⟩ [] 1 0 9 hle (by decide)).2⟩

end Simulation
end TickMachine
