import Mathlib.Data.List.Nodup
import TickMachine.Proofs.DataPath.Rendering
import TickMachine.Proofs.Machine.Snapshot
import TickMachine.Proofs.Machine.Transfer
import TickMachine.Proofs.Simulation.Bounded
import TickMachine.Proofs.Simulation.Lines

/-! The log of a run against the machines that the run goes through. The clock only moves on, so
that it is at the debug limit once at most and below it only before. What passes the ports is
logged in the order in which it leaves the input and enters the output. -/

namespace TickMachine.Simulation

open DataPath (Renders renders_iff)
open Machine (transfers_of_executed ports_of_error)

variable {limit debugLimit : UInt64} {m m' : Machine} {ms : List Machine} {ending : Ending}
  {event : Event}

/-! ### What executed instructions log -/

/-- What can be logged of executed instructions that lead to the machines `ms`. -/
inductive Logged (debugLimit : UInt64) (ms : List Machine) : Event → Prop
  | consumed (c : Char) : Logged debugLimit ms (.consumed c)
  | emitted (code : Int64) : Logged debugLimit ms (.emitted code)
  | stepped {m' : Machine} (hmem : m' ∈ ms) (hlt : m'.tick < debugLimit) :
      Logged debugLimit ms (.stepped m'.snapshot)
  | debugLimitReached {m' : Machine} (hmem : m' ∈ ms) (htick : m'.tick = debugLimit) :
      Logged debugLimit ms .debugLimitReached

theorem mem_portEvents (h : event ∈ portEvents m m') :
    (∃ c, event = .consumed c) ∨ ∃ code, event = .emitted code := by
  obtain ⟨w, -, h⟩ := List.mem_flatMap.1 h
  unfold transfer at h
  split at h
  · obtain ⟨c, -, rfl⟩ := List.mem_map.1 h
    exact .inl ⟨c, rfl⟩
  · split at h
    · obtain ⟨code, -, rfl⟩ := List.mem_map.1 h
      exact .inr ⟨code, rfl⟩
    · cases h

theorem mem_clockEvent (h : event ∈ clockEvent debugLimit m) :
    event = .stepped m.snapshot ∧ m.tick < debugLimit ∨
      event = .debugLimitReached ∧ m.tick = debugLimit := by
  unfold clockEvent at h
  split at h
  · next hlt => exact .inl ⟨List.mem_singleton.1 h, hlt⟩
  · split at h
    · next htick => exact .inr ⟨List.mem_singleton.1 h, htick⟩
    · cases h

theorem mem_endEvents (h : event ∈ endEvents m ending) :
    event = .inputEmpty ∧ ending = .stopped (.ok .endOfInput) ∨
      ∃ m', event ∈ portEvents m m' ∧ ending = .clockOverflow := by
  unfold endEvents at h
  split at h
  · exact .inl ⟨List.mem_singleton.1 h, rfl⟩
  · split at h
    · exact .inr ⟨_, h, rfl⟩
    · cases h
  · cases h

theorem logged_of_mem_stepEvents (h : event ∈ stepEvents debugLimit m m') :
    Logged debugLimit [m'] event := by
  have hself := List.mem_singleton_self m'
  rcases List.mem_append.1 h with h | h
  · obtain ⟨c, rfl⟩ | ⟨code, rfl⟩ := mem_portEvents h
    · exact .consumed c
    · exact .emitted code
  · obtain ⟨rfl, hlt⟩ | ⟨rfl, htick⟩ := mem_clockEvent h
    · exact .stepped hself hlt
    · exact .debugLimitReached hself htick

theorem Logged.mono {ms' : List Machine} (h : Logged debugLimit ms event) (hsub : ms ⊆ ms') :
    Logged debugLimit ms' event := by
  cases h with
  | consumed c => exact .consumed c
  | emitted code => exact .emitted code
  | stepped hmem hlt => exact .stepped (hsub hmem) hlt
  | debugLimitReached hmem htick => exact .debugLimitReached (hsub hmem) htick

theorem logged_of_mem (h : event ∈ traceEvents debugLimit m ms) : Logged debugLimit ms event := by
  induction ms generalizing m with
  | nil => cases h
  | cons m' ms ih =>
    rcases List.mem_append.1 h with h | h
    · exact (logged_of_mem_stepEvents h).mono (by simp)
    · exact (ih h).mono (List.subset_cons_self ..)

theorem snapshots_traceEvents : (traceEvents debugLimit m ms).filterMap Event.snapshot? =
    (ms.filter fun m' => m'.tick < debugLimit).map Machine.snapshot := by
  induction ms generalizing m with
  | nil => rfl
  | cons m' ms ih =>
    have hports : (portEvents m m').filterMap Event.snapshot? = [] := by
      refine List.filterMap_eq_nil_iff.2 fun e he => ?_
      obtain ⟨c, rfl⟩ | ⟨code, rfl⟩ := mem_portEvents he <;> rfl
    rw [traceEvents, stepEvents, List.filterMap_append, List.filterMap_append, hports, ih]
    unfold clockEvent
    by_cases hlt : m'.tick < debugLimit
    · simp [hlt, Event.snapshot?]
    · by_cases htick : m'.tick = debugLimit <;> simp [hlt, htick, Event.snapshot?]

theorem count_debugLimitReached : (traceEvents debugLimit m ms).count .debugLimitReached =
    (ms.map (·.tick)).count debugLimit := by
  induction ms generalizing m with
  | nil => rfl
  | cons m' ms ih =>
    have hports : (portEvents m m').count .debugLimitReached = 0 := by
      refine List.count_eq_zero.2 fun he => ?_
      obtain ⟨c, h⟩ | ⟨code, h⟩ := mem_portEvents he <;> cases h
    rw [traceEvents, stepEvents, List.count_append, List.count_append, hports, ih]
    unfold clockEvent
    by_cases hlt : m'.tick < debugLimit
    · simp [hlt, UInt64.ne_of_lt hlt]
    · by_cases htick : m'.tick = debugLimit <;> simp [hlt, htick, Nat.add_comm]

theorem Logged.no_snapshot_after {ms' : List Machine} {later : Event}
    (hevent : Logged debugLimit ms event) (hlater : Logged debugLimit ms' later)
    (hle : ∀ m₁ ∈ ms, ∀ m₂ ∈ ms', m₁.tick ≤ m₂.tick) :
    event = .debugLimitReached → later.snapshot? = none := by
  rintro rfl
  cases hevent with
  | debugLimitReached hmem htick =>
    cases hlater with
    | stepped hmem' hlt =>
      exact absurd (htick ▸ hle _ hmem _ hmem') (UInt64.not_le.2 hlt)
    | _ => rfl

theorem pairwise_traceEvents (h : ms.Pairwise fun m₁ m₂ => m₁.tick < m₂.tick) :
    (traceEvents debugLimit m ms).Pairwise fun event later =>
      event = .debugLimitReached → later.snapshot? = none := by
  induction h generalizing m with
  | nil => exact .nil
  | @cons m' ms hfirst _ ih =>
    refine List.pairwise_append.2 ⟨?_, ih, fun e he later hlater => ?_⟩
    · refine List.pairwise_of_forall_mem_list fun e he later hlater => ?_
      refine (logged_of_mem_stepEvents he).no_snapshot_after (logged_of_mem_stepEvents hlater) ?_
      simp
    · refine (logged_of_mem_stepEvents he).no_snapshot_after (logged_of_mem hlater) ?_
      intro m₁ h₁ m₂ h₂
      obtain rfl := List.mem_singleton.1 h₁
      exact UInt64.le_of_lt (hfirst m₂ h₂)

/-! ### What passes the ports -/

structure Conveys (events : List Event) (m m' : Machine) : Prop where
  input : m.path.input = events.filterMap Event.consumed? ++ m'.path.input
  output : m'.path.output.toList =
    m.path.output.toList ++ events.filterMap Event.emitted?

theorem Conveys.append {m₁ : Machine} {events events' : List Event} (h : Conveys events m m₁)
    (h' : Conveys events' m₁ m') : Conveys (events ++ events') m m' where
  input := by rw [h.input, h'.input, List.filterMap_append, List.append_assoc]
  output := by rw [h'.output, h.output, List.filterMap_append, List.append_assoc]

theorem conveys_of_same {events : List Event} (hinput : m'.path.input = m.path.input)
    (houtput : m'.path.output = m.path.output)
    (h : ∀ e ∈ events, e.consumed? = none ∧ e.emitted? = none) : Conveys events m m' where
  input := by rw [List.filterMap_eq_nil_iff.2 fun e he => (h e he).1, hinput, List.nil_append]
  output := by rw [List.filterMap_eq_nil_iff.2 fun e he => (h e he).2, houtput, List.append_nil]

theorem conveys_transfer {w : Word} (h : w.Transfers m.path m'.path) :
    Conveys (transfer w m.path.input m') m m' := by
  unfold transfer
  by_cases hreads : w.readsInput
  · obtain ⟨c, hinput⟩ := h.reads hreads
    have houtput := h.keepsOutput (w.writesOutput_of_loadV (Word.readsInput_iff.1 hreads).1)
    rw [if_pos hreads, hinput]
    exact ⟨by simp [hinput, Event.consumed?], by simp [houtput, Event.emitted?]⟩
  · rw [if_neg hreads]
    have hinput := h.keepsInput (Bool.eq_false_iff.2 hreads)
    by_cases hwrites : w.writesOutput
    · obtain ⟨code, houtput⟩ := h.writes hwrites
      rw [if_pos hwrites, houtput, Array.back?_push]
      exact ⟨by simp [hinput, Event.consumed?], by simp [houtput, Event.emitted?]⟩
    · rw [if_neg hwrites]
      exact conveys_of_same hinput (h.keepsOutput (Bool.eq_false_iff.2 hwrites)) (by simp)

theorem conveys_portEvents {op : Opcode} (h : m.step = .ok (.executed op) m') :
    Conveys (portEvents m m') m m' := by
  obtain ⟨w, hw, htransfers⟩ := transfers_of_executed h
  rw [portEvents_of_current hw]
  exact conveys_transfer htransfers

theorem conveys_stepEvents (h : m.ending? = none) :
    Conveys (stepEvents debugLimit m m.next) m m.next := by
  obtain ⟨op, hstep⟩ := Machine.ending?_eq_none_iff.1 h
  have hclock : Conveys (clockEvent debugLimit m.next) m.next m.next := by
    refine conveys_of_same rfl rfl fun e he => ?_
    obtain ⟨rfl, -⟩ | ⟨rfl, -⟩ := mem_clockEvent he <;> exact ⟨rfl, rfl⟩
  exact (conveys_portEvents hstep).append hclock

theorem conveys_of_error {fault : Machine.Fault} {events : List Event}
    (h : m.step = .error fault m') (hquiet : ∀ e ∈ events, e.consumed? = none ∧ e.emitted? = none) :
    Conveys events m m' :=
  conveys_of_same (ports_of_error h).1 (ports_of_error h).2 hquiet

theorem conveys_endEvents_stopped {stop : Except Machine.Fault Stop}
    (h : m.ending? = some stop) : Conveys (endEvents m (.stopped stop)) m m.next := by
  have hquiet : ∀ e ∈ endEvents m (.stopped stop), e.consumed? = none ∧ e.emitted? = none := by
    intro e he
    obtain ⟨rfl, -⟩ | ⟨m', -, hoverflow⟩ := mem_endEvents he
    · exact ⟨rfl, rfl⟩
    · cases hoverflow
  obtain ⟨-, hstep⟩ | ⟨-, hstep⟩ | ⟨fault, -, hstep⟩ := Machine.ending?_cases h
  · have hsame := Machine.step_halted hstep
    exact conveys_of_same (by rw [hsame]) (by rw [hsame]) hquiet
  · exact conveys_of_error hstep hquiet
  · exact conveys_of_error hstep hquiet

theorem conveys_endEvents (h : m.clockedEnding? = some ending) :
    Conveys (endEvents m ending) m m.next := by
  unfold Machine.clockedEnding? at h
  split at h
  · obtain rfl := Option.some.inj h
    rw [endEvents, Machine.next]
    cases hstep : m.step with
    | error fault m' => exact conveys_of_error hstep (by simp)
    | ok o m' =>
      cases o with
      | executed op => exact conveys_portEvents hstep
      | halted =>
        have hsame := Machine.step_halted hstep
        dsimp only
        rw [portEvents_of_halted hstep, hsame]
        exact conveys_of_same rfl rfl (by simp)
  · obtain ⟨stop, hstop, rfl⟩ := Option.map_eq_some_iff.1 h
    exact conveys_endEvents_stopped hstop

theorem Traces.conveys (h : Traces limit m ms m' ending) :
    Conveys (traceEvents debugLimit m ms ++ endEvents (ms.getLastD m) ending) m m' := by
  induction h with
  | out => exact conveys_of_same rfl rfl (by simp [traceEvents, endEvents])
  | ended _ hend => exact conveys_endEvents hend
  | executed _ hnone _ ih =>
    rw [traceEvents, List.append_assoc, List.getLastD_cons]
    exact (conveys_stepEvents (Machine.tick_lt_of_clockedEnding? hnone).2).append ih

/-! ### The whole log -/

variable {input : List Char} {config : Config} {outcome : Except Fault Report}

/-- The log of a run that executes instructions which lead to the machines `ms`, in this order, and
ends at `m'`. -/
structure Chronicle (debugLimit : UInt64) (input : List Char) (ms : List Machine) (m' : Machine)
    (log : List LogLine) : Prop where
  first : log.head? = some ⟨.info, "start simulation"⟩
  snapshots : log.filter (·.begins .debug "TICK: ") =
    (ms.filter fun m => m.tick < debugLimit).map fun m => ⟨.debug, m.traceText⟩
  debugLimit : log.count ⟨.warn, "debug limit reached"⟩ =
    if debugLimit ∈ ms.map (·.tick) then 1 else 0
  snapshotsFirst : log.Pairwise fun line later =>
    line = ⟨.warn, "debug limit reached"⟩ → ¬ later.begins .debug "TICK: "
  inputs : ∃ taken, input = taken ++ m'.path.input ∧
    log.filter (·.begins .debug "input: ") = taken.map fun c =>
      ⟨.debug, "input: " ++ if c = '\x00' then "<end>" else String.singleton c⟩
  outputCount : (log.filter (·.begins .debug "output: ")).length = m'.path.output.toList.length
  outputs : ∀ k code, m'.path.output.toList[k]? = some code → ∃ text,
    Renders (m'.path.output.toList.take (k + 1)) text ∧
      (log.filter (·.begins .debug "output: "))[k]? =
        some ⟨.debug, "output: " ++ String.ofList text ++ " << " ++ toString code.toInt⟩

/-- What the log of a run says of its outcome. -/
def Closes (limit : UInt64) (log : List LogLine) : Except Fault Report → Prop
  | .ok r =>
    log.count ⟨.warn, "input buffer is empty"⟩ = (if r.stop = .endOfInput then 1 else 0) ∧
    log.filter (·.begins .warn "tick limit of ") = (if r.limitReached then
      [⟨.warn, "tick limit of " ++ toString limit.toNat ++ " exceeded"⟩] else []) ∧
    ∃ front text, Renders r.output text ∧ r.text = String.ofList text ∧
      log = front ++ [⟨.info, "output: " ++ String.ofList text⟩, ⟨.info, "end simulation"⟩]
  | .error _ =>
    log.count ⟨.warn, "input buffer is empty"⟩ = 0 ∧
    log.filter (·.begins .warn "tick limit of ") = [] ∧
    log.filter (·.begins .info "output: ") = [] ∧
    log.count ⟨.info, "end simulation"⟩ = 0

theorem mem_closing (h : event ∈ closing config outcome) :
    (∃ limit, event = .tickLimitExceeded limit) ∨ (∃ output, event = .result output) ∨
      event = .ended := by
  cases outcome with
  | error fault => cases h
  | ok r =>
    rcases List.mem_append.1 h with h | h
    · split at h
      · exact .inl ⟨_, List.mem_singleton.1 h⟩
      · cases h
    · rcases List.mem_cons.1 h with rfl | h
      · exact .inr (.inl ⟨_, rfl⟩)
      · exact .inr (.inr (List.mem_singleton.1 h))

theorem quiet_of_mem_final (h : event ∈ endEvents m ending ++ closing config outcome) :
    event.snapshot? = none ∧ event ≠ .debugLimitReached := by
  rcases List.mem_append.1 h with h | h
  · obtain ⟨rfl, -⟩ | ⟨m', hport, -⟩ := mem_endEvents h
    · exact ⟨rfl, nofun⟩
    · obtain ⟨c, rfl⟩ | ⟨code, rfl⟩ := mem_portEvents hport <;> exact ⟨rfl, nofun⟩
  · obtain ⟨limit, rfl⟩ | ⟨output, rfl⟩ | rfl := mem_closing h <;> exact ⟨rfl, nofun⟩

theorem conveys_closing (m : Machine) : Conveys (closing config outcome) m m := by
  refine conveys_of_same rfl rfl fun e he => ?_
  obtain ⟨limit, rfl⟩ | ⟨output, rfl⟩ | rfl := mem_closing he <;> exact ⟨rfl, rfl⟩

theorem chronicle_lines {first : Machine} {final : List Event} (hinput : first.path.input = input)
    (houtput : first.path.output = #[])
    (hticks : ms.Pairwise fun m₁ m₂ => m₁.tick < m₂.tick)
    (hconveys : Conveys (traceEvents debugLimit first ms ++ final) first m')
    (hquiet : ∀ e ∈ final, e.snapshot? = none ∧ e ≠ .debugLimitReached) :
    Chronicle debugLimit input ms m'
      (lines (.started :: (traceEvents debugLimit first ms ++ final))) := by
  have hfinal : final.filterMap Event.snapshot? = [] :=
    List.filterMap_eq_nil_iff.2 fun e he => (hquiet e he).1
  have hnone : final.count .debugLimitReached = 0 :=
    List.count_eq_zero.2 fun he => (hquiet _ he).2 rfl
  have hstarted : Event.started ≠ .debugLimitReached := nofun
  have hdistinct : (ms.map (·.tick)).Nodup :=
    List.pairwise_map.2 (hticks.imp fun hlt => UInt64.ne_of_lt hlt)
  have hlines : (lines (.started :: (traceEvents debugLimit first ms ++ final))).filter
      (·.begins .debug "output: ") = m'.path.output.toList.mapIdx fun k code =>
        outputLine (m'.path.output.toList.take (k + 1)) code := by
    have houtputs := hconveys.output
    rw [houtput, Array.toList_empty, List.nil_append] at houtputs
    rw [houtputs]
    exact filter_outputs []
  constructor
  case first => rfl
  case snapshots =>
    have hline : (fun after : Snapshot => LogLine.mk .debug after.line) ∘ Machine.snapshot =
        fun m => ⟨.debug, m.traceText⟩ := funext fun m => by rw [← Machine.line_snapshot]; rfl
    rw [filter_snapshots, List.filterMap_cons_none rfl, List.filterMap_append, hfinal,
      List.append_nil, snapshots_traceEvents, List.map_map, hline]
  case debugLimit =>
    rw [lines, count_linesAfter line_eq_debugLimit_iff, List.count_cons_of_ne hstarted,
      List.count_append, hnone, count_debugLimitReached, Nat.add_zero]
    split
    · next hmem => exact List.count_eq_one_of_mem hdistinct hmem
    · next hmem => exact List.count_eq_zero.2 hmem
  case snapshotsFirst =>
    refine pairwise_linesAfter (R := fun e later => e = .debugLimitReached →
      later.snapshot? = none) (fun e later w w' h hline => ?_) ?_
    · exact not_begins_of_snapshot? (h ((line_eq_debugLimit_iff w e).1 hline))
    · refine .cons (fun later _ h => absurd h hstarted) (List.pairwise_append.2 ⟨?_, ?_, ?_⟩)
      · exact pairwise_traceEvents hticks
      · exact List.pairwise_of_forall_mem_list fun e _ later hlater _ => (hquiet later hlater).1
      · exact fun e _ later hlater _ => (hquiet later hlater).1
  case inputs =>
    have hinputs := hconveys.input
    rw [hinput] at hinputs
    exact ⟨_, hinputs, filter_inputs⟩
  case outputCount => rw [hlines, List.length_mapIdx]
  case outputs =>
    intro k code hcode
    refine ⟨_, renders_iff.2 rfl, ?_⟩
    rw [hlines, List.getElem?_mapIdx, hcode, String.ofList_toList]
    rfl

structure Event.GoesOn (event : Event) : Prop where
  input : event ≠ .inputEmpty
  limit : event.exceeded? = none
  result : event.result? = none
  ended : event ≠ .ended

theorem goesOn_of_mem (h : event ∈ .started :: traceEvents debugLimit m ms) : event.GoesOn := by
  rcases List.mem_cons.1 h with rfl | h
  · exact ⟨nofun, rfl, rfl, nofun⟩
  · cases logged_of_mem h <;> exact ⟨nofun, rfl, rfl, nofun⟩

theorem goesOn_of_mem_portEvents (h : event ∈ portEvents m m') : event.GoesOn := by
  obtain ⟨c, rfl⟩ | ⟨code, rfl⟩ := mem_portEvents h <;> exact ⟨nofun, rfl, rfl, nofun⟩

variable {body : List Event}

theorem closes_error {fault : Fault} (hbody : ∀ e ∈ body, e.GoesOn) :
    Closes limit (lines body) (.error fault) := by
  have hlimit : body.filterMap Event.exceeded? = [] :=
    List.filterMap_eq_nil_iff.2 fun e he => (hbody e he).limit
  have hresult : body.filterMap Event.result? = [] :=
    List.filterMap_eq_nil_iff.2 fun e he => (hbody e he).result
  refine ⟨?_, ?_, ?_, ?_⟩
  · rw [lines, count_linesAfter line_eq_inputEmpty_iff]
    exact List.count_eq_zero.2 fun he => (hbody _ he).input rfl
  · rw [filter_exceeded, hlimit]
    rfl
  · rw [filter_results, hresult]
    rfl
  · rw [lines, count_linesAfter line_eq_ended_iff]
    exact List.count_eq_zero.2 fun he => (hbody _ he).ended rfl

theorem closes_ok {r : Report} (hbody : ∀ e ∈ body, e.GoesOn) :
    Closes config.limit (lines (body ++
      (endEvents m (.stopped (.ok r.stop)) ++ closing config (.ok r)))) (.ok r) := by
  have hinput : body.count .inputEmpty = 0 :=
    List.count_eq_zero.2 fun he => (hbody _ he).input rfl
  have hlimit : body.filterMap Event.exceeded? = [] :=
    List.filterMap_eq_nil_iff.2 fun e he => (hbody e he).limit
  have hend : (endEvents m (.stopped (.ok r.stop))).count .inputEmpty =
      if r.stop = .endOfInput then 1 else 0 := by
    cases r.stop <;> rfl
  have hclosing : (closing config (.ok r)).count .inputEmpty = 0 := by
    refine List.count_eq_zero.2 fun he => ?_
    obtain ⟨limit, h⟩ | ⟨output, h⟩ | h := mem_closing he <;> cases h
  have hexceeded : (endEvents m (.stopped (.ok r.stop))).filterMap Event.exceeded? = [] := by
    cases r.stop <;> rfl
  refine ⟨?_, ?_, ?_⟩
  · rw [lines, count_linesAfter line_eq_inputEmpty_iff, List.count_append, List.count_append,
      hinput, hend, hclosing, Nat.zero_add, Nat.add_zero]
  · rw [filter_exceeded, List.filterMap_append, List.filterMap_append, hlimit, hexceeded,
      closing, closingEvents]
    cases r.limitReached <;> rfl
  · let front := body ++ endEvents m (.stopped (.ok r.stop)) ++
      if r.limitReached then [.tickLimitExceeded config.limit] else []
    obtain ⟨w, hw⟩ := exists_linesAfter_append "" front [.result r.text, .ended]
    refine ⟨lines front, r.text.toList, renders_iff.2 rfl, String.ofList_toList.symm, ?_⟩
    rw [String.ofList_toList, closing, closingEvents, ← List.append_assoc, ← List.append_assoc]
    exact hw

theorem closes_lines {n : Nat} (hbody : ∀ e ∈ body, e.GoesOn) :
    Closes config.limit (lines (body ++
      (endEvents m ending ++ closing config (ending.outcome config.limit n m'))))
      (ending.outcome config.limit n m') := by
  cases ending with
  | stopped stop =>
    cases stop with
    | ok stop => exact closes_ok (r := ⟨_, n, _, stop, _, _⟩) hbody
    | error fault =>
      refine closes_error fun e he => ?_
      rw [Ending.outcome, outcomeOf, closing, List.append_nil] at he
      exact hbody e ((List.mem_append.1 he).resolve_right List.not_mem_nil)
  | clockOverflow =>
    refine closes_error fun e he => ?_
    rw [Ending.outcome, closing, List.append_nil] at he
    rcases List.mem_append.1 he with he | he
    · exact hbody e he
    · obtain ⟨-, hstop⟩ | ⟨m', hport, -⟩ := mem_endEvents he
      · cases hstop
      · exact goesOn_of_mem_portEvents hport

/-- The log of a run is that of what it does: one snapshot for every instruction below the debug
limit, the passing of that limit, what goes through the ports, and how it ends. -/
theorem simulate_log (image : Image) (input : List Char) (config : Config)
    (hr : 1 ≤ config.registers) :
    ∃ ms m' ending, Traces config.limit (.load image config.registers input) ms m' ending ∧
      (simulate image input config).outcome = ending.outcome config.limit (begun ms ending) m' ∧
      Chronicle config.debugLimit input ms m' (lines (simulate image input config).events) ∧
      Closes config.limit (lines (simulate image input config).events)
        (simulate image input config).outcome := by
  obtain ⟨ms, m', ending, htrace⟩ := exists_traces config.limit (.load image config.registers input)
  have hticks := (List.pairwise_cons.1 htrace.pairwise).2
  refine ⟨ms, m', ending, htrace, ?_⟩
  rw [simulate_of_traces (Nat.ne_of_gt hr) htrace]
  refine ⟨rfl, ?_, closes_lines fun e he => goesOn_of_mem he⟩
  refine chronicle_lines rfl rfl hticks ?_ fun e he => quiet_of_mem_final he
  rw [← List.append_assoc]
  exact htrace.conveys.append (conveys_closing m')

def relay : Image := ⟨[], [⟨0, .loadV, [0, 0]⟩, ⟨1, .storeV, [1, 0]⟩, ⟨2, .jmp, [0]⟩]⟩

def relayLog : List LogLine := [
  ⟨.info, "start simulation"⟩,
  ⟨.debug, "input: a"⟩,
  ⟨.debug, "TICK:    2 [ 1: STORE_V] PC:  1 DR:  0 SB:  0 RG: [97] Z: 0"⟩,
  ⟨.debug, "output: a << 97"⟩,
  ⟨.warn, "debug limit reached"⟩,
  ⟨.warn, "input buffer is empty"⟩,
  ⟨.info, "output: a"⟩,
  ⟨.info, "end simulation"⟩]

theorem simulate_log_relay :
    1 ≤ 1 ∧ lines (simulate relay ['a'] ⟨1, 100, 4⟩).events = relayLog ∧
    (simulate relay ['a'] ⟨1, 100, 4⟩).outcome = .ok ⟨[97], 4, 6, .endOfInput, false, [97]⟩ ∧
    ∃ ms m' ending, Traces 100 (.load relay 1 ['a']) ms m' ending ∧
      .ok ⟨[97], 4, 6, .endOfInput, false, [97]⟩ = ending.outcome 100 (begun ms ending) m' ∧
      Chronicle 4 ['a'] ms m' relayLog ∧
      Closes 100 relayLog (.ok ⟨[97], 4, 6, .endOfInput, false, [97]⟩) := by
  have hlog : lines (simulate relay ['a'] ⟨1, 100, 4⟩).events = relayLog := by decide
  have houtcome : (simulate relay ['a'] ⟨1, 100, 4⟩).outcome =
      .ok ⟨[97], 4, 6, .endOfInput, false, [97]⟩ := rfl
  have hrun := simulate_log relay ['a'] ⟨1, 100, 4⟩ (by decide)
  rw [hlog, houtcome] at hrun
  exact ⟨by decide, hlog, houtcome, hrun⟩

end TickMachine.Simulation
