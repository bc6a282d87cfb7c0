import TickMachine.Simulation.Log

/-! The lines of a log, kind by kind. What kind a line is of, by its level and the start of its
message, does not depend on the output so far, so that the lines of a kind are those of the events
of a kind. Only the lines of output codes repeat what was written before them. -/

namespace TickMachine.Simulation

def LogLine.begins (level : Level) (start : String) (line : LogLine) : Bool :=
  line.level == level && start.toList.isPrefixOf line.message.toList

namespace Event

def consumed? : Event → Option Char
  | .consumed c => some c
  | _ => none

def emitted? : Event → Option Int64
  | .emitted code => some code
  | _ => none

def snapshot? : Event → Option Snapshot
  | .stepped after => some after
  | _ => none

def exceeded? : Event → Option UInt64
  | .tickLimitExceeded limit => some limit
  | _ => none

def result? : Event → Option String
  | .result output => some output
  | _ => none

end Event

variable {written start : String} {level : Level} {events : List Event} {event : Event}
  {line : LogLine}

theorem mem_linesAfter (h : line ∈ linesAfter written events) :
    ∃ event ∈ events, ∃ w, line = event.line w := by
  induction events generalizing written with
  | nil => cases h
  | cons event events ih =>
    rcases List.mem_cons.1 h with rfl | h
    · exact ⟨event, List.mem_cons_self .., _, rfl⟩
    · obtain ⟨e, he, hline⟩ := ih h
      exact ⟨e, List.mem_cons_of_mem _ he, hline⟩

theorem exists_linesAfter_append (written : String) (events events' : List Event) :
    ∃ w, linesAfter written (events ++ events') =
      linesAfter written events ++ linesAfter w events' := by
  induction events generalizing written with
  | nil => exact ⟨written, rfl⟩
  | cons event events ih =>
    obtain ⟨w, hw⟩ := ih (written ++ event.written)
    exact ⟨w, by rw [List.cons_append, linesAfter, hw, linesAfter, List.cons_append]⟩

theorem pairwise_linesAfter {R : Event → Event → Prop} {S : LogLine → LogLine → Prop}
    (h : ∀ e e' w w', R e e' → S (e.line w) (e'.line w')) (hevents : events.Pairwise R) :
    (linesAfter written events).Pairwise S := by
  induction hevents generalizing written with
  | nil => exact .nil
  | cons hfirst _ ih =>
    refine .cons (fun line hline => ?_) ih
    obtain ⟨e, he, w, rfl⟩ := mem_linesAfter hline
    exact h _ _ _ _ (hfirst e he)

theorem count_linesAfter (h : ∀ w e, e.line w = line ↔ e = event) :
    (linesAfter written events).count line = events.count event := by
  induction events generalizing written with
  | nil => rfl
  | cons e events ih =>
    have hsame : (e.line (written ++ e.written) == line) = (e == event) := by
      rw [Bool.eq_iff_iff, beq_iff_eq, beq_iff_eq]
      exact h _ e
    rw [linesAfter, List.count_cons, List.count_cons, ih, hsame]

theorem filter_linesAfter {p : LogLine → Bool} {line? : Event → Option LogLine}
    (h : ∀ w e, line? e = if p (e.line w) then some (e.line w) else none) (written : String) :
    (linesAfter written events).filter p = events.filterMap line? := by
  induction events generalizing written with
  | nil => rfl
  | cons e events ih =>
    have hrest := ih (written ++ e.written)
    rw [linesAfter, List.filterMap_cons, h (written ++ e.written) e, ← hrest]
    by_cases hp : p (e.line (written ++ e.written))
    · rw [List.filter_cons_of_pos hp, if_pos hp]
    · rw [List.filter_cons_of_neg hp, if_neg hp]

/-! ### The kinds of lines -/

def Event.mark : Event → Level × Char
  | .started => (.info, 's')
  | .consumed _ => (.debug, 'i')
  | .emitted _ => (.debug, 'o')
  | .stepped _ => (.debug, 'T')
  | .debugLimitReached => (.warn, 'd')
  | .inputEmpty => (.warn, 'i')
  | .tickLimitExceeded _ => (.warn, 't')
  | .result _ => (.info, 'o')
  | .ended => (.info, 'e')

theorem exists_snapshot_line (after : Snapshot) : ∃ rest, after.line = "TICK: " ++ rest := by
  unfold Snapshot.line
  simp only [String.append_assoc]
  exact ⟨_, rfl⟩

theorem head?_append {s rest : String} {c : Char} (h : s.toList.head? = some c) :
    (s ++ rest).toList.head? = some c := by
  rw [String.toList_append, List.head?_append, h]
  rfl

theorem mark_line (w : String) (event : Event) : (event.line w).level = event.mark.1 ∧
    (event.line w).message.toList.head? = some event.mark.2 := by
  cases event with
  | started =>
    rw [Event.line]
    exact ⟨rfl, rfl⟩
  | consumed c => exact ⟨rfl, head?_append rfl⟩
  | emitted code => exact ⟨rfl, head?_append (head?_append (head?_append rfl))⟩
  | stepped after =>
    obtain ⟨rest, hline⟩ := exists_snapshot_line after
    rw [Event.line, hline]
    exact ⟨rfl, head?_append rfl⟩
  | debugLimitReached =>
    rw [Event.line]
    exact ⟨rfl, rfl⟩
  | inputEmpty =>
    rw [Event.line]
    exact ⟨rfl, rfl⟩
  | tickLimitExceeded limit => exact ⟨rfl, head?_append (head?_append rfl)⟩
  | result output => exact ⟨rfl, head?_append rfl⟩
  | ended =>
    rw [Event.line]
    exact ⟨rfl, rfl⟩

theorem begins_iff : line.begins level start ↔
    line.level = level ∧ start.toList <+: line.message.toList := by
  rw [LogLine.begins, Bool.and_eq_true_iff, beq_iff_eq, List.isPrefixOf_iff_prefix]

theorem begins_append (level : Level) (start rest : String) :
    LogLine.begins level start ⟨level, start ++ rest⟩ := by
  refine begins_iff.2 ⟨rfl, ?_⟩
  rw [String.toList_append]
  exact List.prefix_append ..

theorem mark_of_begins {c : Char} (hstart : start.toList.head? = some c)
    (h : (event.line written).begins level start) : event.mark = (level, c) := by
  obtain ⟨hlevel, hfirst⟩ := mark_line written event
  obtain ⟨hsame, rest, hrest⟩ := begins_iff.1 h
  rw [← hrest, List.head?_append, hstart] at hfirst
  exact Prod.ext (hlevel.symm.trans hsame) (Option.some.inj hfirst).symm

theorem mark_eq_of_line_eq {w w' : String} {e e' : Event} (h : e.line w = e'.line w') :
    e.mark = e'.mark := by
  obtain ⟨hlevel, hfirst⟩ := mark_line w e
  obtain ⟨hlevel', hfirst'⟩ := mark_line w' e'
  rw [h] at hlevel hfirst
  exact Prod.ext (hlevel.symm.trans hlevel') (Option.some.inj (hfirst.symm.trans hfirst'))

theorem filter_begins {c : Char} {line? : Event → Option LogLine}
    (hstart : start.toList.head? = some c)
    (hline : ∀ w e, line? e = some (e.line w) ∧ (e.line w).begins level start ∨
      line? e = none ∧ e.mark ≠ (level, c)) :
    (linesAfter written events).filter (·.begins level start) = events.filterMap line? := by
  refine filter_linesAfter (fun w e => ?_) written
  obtain ⟨hsome, hbegins⟩ | ⟨hnone, hmark⟩ := hline w e
  · rw [hsome, if_pos hbegins]
  · rw [hnone, if_neg fun hbegins => hmark (mark_of_begins hstart hbegins)]

theorem filter_snapshots : (lines events).filter (·.begins .debug "TICK: ") =
    (events.filterMap Event.snapshot?).map fun after => ⟨.debug, after.line⟩ := by
  rw [List.map_filterMap]
  refine filter_begins (c := 'T') rfl fun w e => ?_
  cases e with
  | stepped after =>
    obtain ⟨rest, hline⟩ := exists_snapshot_line after
    refine .inl ⟨rfl, ?_⟩
    rw [Event.line, hline]
    exact begins_append ..
  | _ => exact .inr ⟨rfl, by simp [Event.mark]⟩

theorem filter_inputs : (lines events).filter (·.begins .debug "input: ") =
    (events.filterMap Event.consumed?).map fun c =>
      ⟨.debug, "input: " ++ if c = '\x00' then "<end>" else String.singleton c⟩ := by
  rw [List.map_filterMap]
  refine filter_begins (c := 'i') rfl fun w e => ?_
  cases e with
  | consumed c => exact .inl ⟨rfl, begins_append ..⟩
  | _ => exact .inr ⟨rfl, by simp [Event.mark]⟩

theorem filter_exceeded : (lines events).filter (·.begins .warn "tick limit of ") =
    (events.filterMap Event.exceeded?).map fun limit =>
      ⟨.warn, "tick limit of " ++ toString limit.toNat ++ " exceeded"⟩ := by
  rw [List.map_filterMap]
  refine filter_begins (c := 't') rfl fun w e => ?_
  cases e with
  | tickLimitExceeded limit =>
    refine .inl ⟨rfl, ?_⟩
    rw [Event.line, String.append_assoc]
    exact begins_append ..
  | _ => exact .inr ⟨rfl, by simp [Event.mark]⟩

theorem filter_results : (lines events).filter (·.begins .info "output: ") =
    (events.filterMap Event.result?).map fun output => ⟨.info, "output: " ++ output⟩ := by
  rw [List.map_filterMap]
  refine filter_begins (c := 'o') rfl fun w e => ?_
  cases e with
  | result output => exact .inl ⟨rfl, begins_append ..⟩
  | _ => exact .inr ⟨rfl, by simp [Event.mark]⟩

theorem line_eq_iff (hline : ∀ w, event.line w = line)
    (hmark : ∀ e, e.mark = event.mark → e = event) (w : String) (e : Event) :
    e.line w = line ↔ e = event := by
  refine ⟨fun h => hmark e ?_, fun h => h ▸ hline w⟩
  exact mark_eq_of_line_eq (h.trans (hline w).symm)

theorem line_eq_debugLimit_iff (w : String) (e : Event) :
    e.line w = ⟨.warn, "debug limit reached"⟩ ↔ e = .debugLimitReached := by
  refine line_eq_iff (fun _ => rfl) (fun e h => ?_) w e
  cases e <;> first | rfl | simp [Event.mark] at h

theorem line_eq_inputEmpty_iff (w : String) (e : Event) :
    e.line w = ⟨.warn, "input buffer is empty"⟩ ↔ e = .inputEmpty := by
  refine line_eq_iff (fun _ => rfl) (fun e h => ?_) w e
  cases e <;> first | rfl | simp [Event.mark] at h

theorem line_eq_ended_iff (w : String) (e : Event) :
    e.line w = ⟨.info, "end simulation"⟩ ↔ e = .ended := by
  refine line_eq_iff (fun _ => rfl) (fun e h => ?_) w e
  cases e <;> first | rfl | simp [Event.mark] at h

theorem not_begins_of_snapshot? (h : event.snapshot? = none) :
    ¬ (event.line written).begins .debug "TICK: " := by
  intro hbegins
  have hmark := mark_of_begins (c := 'T') rfl hbegins
  cases event with
  | stepped after => cases h
  | _ => simp [Event.mark] at hmark

def outputLine (written : List Int64) (code : Int64) : LogLine :=
  ⟨.debug, "output: " ++ DataPath.renderOutput written ++ " << " ++ toString code.toInt⟩

theorem begins_output (written : String) (e : Event) :
    (e.line written).begins .debug "output: " ↔ ∃ code, e = .emitted code := by
  constructor
  · intro h
    have hmark := mark_of_begins (c := 'o') rfl h
    cases e with
    | emitted code => exact ⟨code, rfl⟩
    | _ => simp [Event.mark] at hmark
  · rintro ⟨code, rfl⟩
    rw [Event.line, String.append_assoc, String.append_assoc]
    exact begins_append ..

theorem renderOutput_append_singleton (codes : List Int64) (code : Int64) :
    DataPath.renderOutput (codes ++ [code]) =
      DataPath.renderOutput codes ++ DataPath.renderCode code := by
  simp [DataPath.renderOutput]

theorem filter_outputs (before : List Int64) :
    (linesAfter (DataPath.renderOutput before) events).filter (·.begins .debug "output: ") =
      (events.filterMap Event.emitted?).mapIdx fun k code =>
        outputLine (before ++ (events.filterMap Event.emitted?).take (k + 1)) code := by
  induction events generalizing before with
  | nil => rfl
  | cons e events ih =>
    by_cases hcode : ∃ code, e = .emitted code
    · have hbegins := (begins_output (DataPath.renderOutput before ++ e.written) e).2 hcode
      obtain ⟨code, rfl⟩ := hcode
      rw [linesAfter, List.filter_cons_of_pos hbegins, Event.written,
        ← renderOutput_append_singleton, ih (before ++ [code])]
      simp only [List.filterMap_cons, Event.emitted?, List.mapIdx_cons, List.take_succ_cons,
        List.take_zero, List.append_assoc, List.singleton_append]
      rfl
    · have hbegins := mt (begins_output (DataPath.renderOutput before ++ e.written) e).1 hcode
      have hsame : e.emitted? = none ∧ e.written = "" := by
        cases e with
        | emitted code => exact absurd ⟨code, rfl⟩ hcode
        | _ => exact ⟨rfl, rfl⟩
      rw [linesAfter, List.filter_cons_of_neg hbegins, hsame.2, String.append_empty, ih,
        List.filterMap_cons_none hsame.1]

end TickMachine.Simulation
