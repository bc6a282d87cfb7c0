import TickMachine.Debugger.View
import TickMachine.Proofs.Debugger.Running

/-! A debugger that has stopped, and resets. No operation but a reset moves the machine of a stopped
debugger, and after a reset everything goes as with a new debugger that has the same breakpoints:
what was done before leaves its mark on the status line and the scrolling alone. -/

namespace TickMachine.Debugger

inductive Operation
  | step | run | tick | pause | toggleBreakpoint
  | placeBreakpoint (address : UInt64)
  | scrollTo (cell : Nat)
  | listing (lines : Nat)
  | draw (width height : Nat)
  | reset
  deriving DecidableEq

inductive Reply
  | done
  | listing (rows : List ListingRow)
  | screen (rows : List Screen.Row)

def perform (d : Debugger) : Operation → Reply × Debugger
  | .step => (.done, d.step)
  | .run => (.done, d.run)
  | .tick => (.done, d.tick)
  | .pause => (.done, d.pause)
  | .toggleBreakpoint => (.done, d.toggleBreakpoint)
  | .placeBreakpoint address => (.done, d.placeBreakpoint address)
  | .scrollTo cell => (.done, d.scrollTo cell)
  | .listing lines => (.listing (d.listing lines), d)
  | .draw width height => (.screen (d.draw width height), d)
  | .reset => (.done, d.reset)

def after (d : Debugger) (ops : List Operation) : Debugger :=
  ops.foldl (fun d op => (d.perform op).2) d

variable {d d' : Debugger} {op : Operation} {ops : List Operation} {a : UInt64}
  {breakpoints : List UInt64} {image : Image} {input : List Char}

theorem after_keeps {I : Debugger → Prop} (hop : ∀ d, ∀ op ∈ ops, I d → I (d.perform op).2)
    (hd : I d) : I (d.after ops) := by
  induction ops generalizing d with
  | nil => exact hd
  | cons op ops ih =>
    have hfirst := hop d op (List.mem_cons_self ..) hd
    exact ih (fun d op' h => hop d op' (List.mem_cons_of_mem _ h)) hfirst

/-! ### What an operation can do -/

def Adjusts (d d' : Debugger) : Prop :=
  ∃ breakpoints running status scroll, d' = { d with breakpoints, running, status, scroll }

def Steps (d d' : Debugger) : Prop :=
  d.stopped = false ∧ ∃ breakpoints running status scroll, d' = { d with
    machine := d.machine.next
    stopped := d.machine.ending?.isSome
    breakpoints, running, status, scroll }

theorem Adjusts.trans {d₁ d₂ : Debugger} (h₁ : d.Adjusts d₁) (h₂ : d₁.Adjusts d₂) :
    d.Adjusts d₂ := by
  obtain ⟨_, _, _, _, rfl⟩ := h₁
  exact h₂

theorem Adjusts.steps {d₁ d₂ : Debugger} (h₁ : d.Adjusts d₁) (h₂ : d₁.Steps d₂) : d.Steps d₂ := by
  obtain ⟨_, _, _, _, rfl⟩ := h₁
  exact h₂

theorem step_of_stopped (hd : d.stopped) :
    d.step = { d with running := false, status := .refused d.machine.tick } := if_pos hd

theorem run_eq (d : Debugger) :
    d.run = if d.counter ∈ d.breakpoints then d.started.step else d.started := rfl

theorem started_adjusts (d : Debugger) : d.Adjusts d.started := ⟨_, _, _, _, rfl⟩

theorem step_adjusts_or_steps (d : Debugger) : d.Adjusts d.step ∨ d.Steps d.step := by
  cases hd : d.stopped with
  | true => exact .inl ⟨_, _, _, _, step_of_stopped hd⟩
  | false =>
    obtain ⟨status, hstep⟩ := step_eq hd
    exact .inr ⟨hd, _, _, status, _, hstep⟩

theorem Adjusts.step (h : d.Adjusts d') : d.Adjusts d'.step ∨ d.Steps d'.step :=
  d'.step_adjusts_or_steps.imp h.trans h.steps

theorem placeBreakpoint_adjusts (d : Debugger) (address : UInt64) :
    d.Adjusts (d.placeBreakpoint address) := by
  unfold placeBreakpoint
  split
  · exact ⟨_, _, _, _, rfl⟩
  · exact ⟨_, _, _, _, rfl⟩

theorem toggleBreakpoint_adjusts (d : Debugger) : d.Adjusts d.toggleBreakpoint := by
  unfold toggleBreakpoint
  split
  · exact ⟨_, _, _, _, rfl⟩
  · exact (d.placeBreakpoint_adjusts d.counter).trans ⟨_, _, _, _, rfl⟩

theorem perform_adjusts_or_steps (d : Debugger) (hop : op ≠ .reset) :
    d.Adjusts (d.perform op).2 ∨ d.Steps (d.perform op).2 := by
  cases op with
  | step => exact d.step_adjusts_or_steps
  | run =>
    show d.Adjusts d.run ∨ d.Steps d.run
    rw [run_eq]
    split
    -- On a breakpoint a run makes its first step at once.
    · exact d.started_adjusts.step
    · exact .inl d.started_adjusts
  | tick =>
    show d.Adjusts d.tick ∨ d.Steps d.tick
    unfold tick
    split
    · split
      · exact .inl ⟨_, _, _, _, rfl⟩
      · exact d.step_adjusts_or_steps
    · exact .inl ⟨_, _, _, _, rfl⟩
  | toggleBreakpoint => exact .inl d.toggleBreakpoint_adjusts
  | placeBreakpoint address => exact .inl (d.placeBreakpoint_adjusts address)
  | reset => exact absurd rfl hop
  | _ => exact .inl ⟨_, _, _, _, rfl⟩

/-! ### Stopped debuggers -/

theorem perform_loaded (d : Debugger) (op : Operation) :
    (d.perform op).2.image = d.image ∧ (d.perform op).2.input = d.input := by
  by_cases hop : op = .reset
  · subst hop
    exact ⟨rfl, rfl⟩
  · obtain ⟨_, _, _, _, h⟩ | ⟨-, _, _, _, _, h⟩ := d.perform_adjusts_or_steps hop
    · rw [h]
      exact ⟨rfl, rfl⟩
    · rw [h]
      exact ⟨rfl, rfl⟩

theorem after_loaded (d : Debugger) (ops : List Operation) :
    (d.after ops).image = d.image ∧ (d.after ops).input = d.input := by
  refine after_keeps (I := fun d' => d'.image = d.image ∧ d'.input = d.input) ?_ ⟨rfl, rfl⟩
  intro d' op _ h
  have hop := d'.perform_loaded op
  exact ⟨hop.1.trans h.1, hop.2.trans h.2⟩

theorem perform_of_stopped (hd : d.stopped) (hop : op ≠ .reset) :
    (d.perform op).2.machine = d.machine ∧ (d.perform op).2.stopped := by
  obtain ⟨_, _, _, _, h⟩ | ⟨hfalse, -⟩ := d.perform_adjusts_or_steps hop
  · rw [h]
    exact ⟨rfl, hd⟩
  · rw [hd] at hfalse
    cases hfalse

theorem after_of_stopped (hd : d.stopped) (hops : .reset ∉ ops) :
    (d.after ops).machine = d.machine ∧ (d.after ops).stopped := by
  refine after_keeps (I := fun d' => d'.machine = d.machine ∧ d'.stopped) ?_ ⟨rfl, hd⟩
  intro d' op hop h
  have hstill := perform_of_stopped h.2 fun he => hops (he ▸ hop)
  exact ⟨hstill.1.trans h.1, hstill.2⟩

theorem running_step_of_stopped (hd : d.stopped) : d.step.running = false := by
  rw [step_of_stopped hd]

theorem running_tick_of_stopped (hd : d.stopped) : d.tick.running = false := by
  unfold tick
  split
  · split
    · rfl
    · exact running_step_of_stopped hd
  · next hnot => exact Bool.eq_false_iff.2 hnot

/-! ### Breakpoints in order -/

theorem mem_insertAddress {x : UInt64} :
    x ∈ insertAddress a breakpoints ↔ x = a ∨ x ∈ breakpoints := by
  fun_induction insertAddress a breakpoints with
  | case1 => simp
  | case2 => simp
  | case3 other rest _ ih => simp [ih, or_left_comm]

theorem pairwise_insertAddress (h : breakpoints.Pairwise (· < ·)) (ha : a ∉ breakpoints) :
    (insertAddress a breakpoints).Pairwise (· < ·) := by
  fun_induction insertAddress a breakpoints with
  | case1 => exact List.pairwise_singleton _ _
  | case2 other rest hlt =>
    refine List.pairwise_cons.2 ⟨?_, h⟩
    refine List.forall_mem_cons.2 ⟨hlt, fun x hx => ?_⟩
    exact UInt64.lt_trans hlt ((List.pairwise_cons.1 h).1 x hx)
  | case3 other rest hle ih =>
    have hne : a ≠ other := fun he => ha (he ▸ List.mem_cons_self ..)
    have hlt : other < a := UInt64.lt_of_le_of_ne (UInt64.not_lt.1 hle) hne.symm
    have hother := List.pairwise_cons.1 h
    refine List.pairwise_cons.2 ⟨fun x hx => ?_, ih hother.2 fun hr => ha (.tail _ hr)⟩
    obtain rfl | hx := mem_insertAddress.1 hx
    · exact hlt
    · exact hother.1 x hx

theorem insertAddress_of_forall_lt (h : ∀ x ∈ breakpoints, x < a) :
    insertAddress a breakpoints = breakpoints ++ [a] := by
  induction breakpoints with
  | nil => rfl
  | cons other rest ih =>
    have hother : ¬ a < other := UInt64.not_lt.2 (UInt64.le_of_lt (h other (List.mem_cons_self ..)))
    rw [insertAddress, if_neg hother, ih fun x hx => h x (List.mem_cons_of_mem _ hx)]
    rfl

theorem foldl_placeBreakpoint (h : (d.breakpoints ++ breakpoints).Pairwise (· < ·)) :
    breakpoints.foldl placeBreakpoint d =
      { d with breakpoints := d.breakpoints ++ breakpoints } := by
  induction breakpoints generalizing d with
  | nil => rw [List.append_nil, List.foldl_nil]
  | cons a rest ih =>
    have hlt : ∀ x ∈ d.breakpoints, x < a := fun x hx =>
      (List.pairwise_append.1 h).2.2 x hx a (List.mem_cons_self ..)
    have hnot : a ∉ d.breakpoints := fun ha => UInt64.lt_irrefl a (hlt a ha)
    have hplace : d.placeBreakpoint a = { d with breakpoints := d.breakpoints ++ [a] } := by
      rw [placeBreakpoint, if_neg hnot, insertAddress_of_forall_lt hlt]
    rw [List.append_cons] at h ⊢
    rw [List.foldl_cons, hplace, ih h]

theorem placeBreakpoint_pairwise (h : d.breakpoints.Pairwise (· < ·)) :
    (d.placeBreakpoint a).breakpoints.Pairwise (· < ·) := by
  unfold placeBreakpoint
  split
  · exact h
  · next ha => exact pairwise_insertAddress h ha

theorem step_breakpoints (d : Debugger) : d.step.breakpoints = d.breakpoints := by
  cases hd : d.stopped with
  | true => rw [step_of_stopped hd]
  | false =>
    obtain ⟨status, hstep⟩ := step_eq hd
    rw [hstep]

theorem perform_pairwise (h : d.breakpoints.Pairwise (· < ·)) (op : Operation) :
    (d.perform op).2.breakpoints.Pairwise (· < ·) := by
  cases op with
  | step => exact d.step_breakpoints ▸ h
  | run =>
    show d.run.breakpoints.Pairwise (· < ·)
    rw [run_eq]
    split
    · rw [step_breakpoints]
      exact h
    · exact h
  | tick =>
    show d.tick.breakpoints.Pairwise (· < ·)
    unfold tick
    split
    · split
      · exact h
      · exact d.step_breakpoints ▸ h
    · exact h
  | toggleBreakpoint =>
    show d.toggleBreakpoint.breakpoints.Pairwise (· < ·)
    unfold toggleBreakpoint
    split
    · exact h.sublist List.erase_sublist
    · exact placeBreakpoint_pairwise h
  | placeBreakpoint address => exact placeBreakpoint_pairwise h
  | _ => exact h

/-! ### After a reset -/

/-- Two debuggers that differ at most in what was done last and in the scrolling. -/
structure Resembles (d d' : Debugger) : Prop where
  machine : d'.machine = d.machine
  image : d'.image = d.image
  input : d'.input = d.input
  breakpoints : d'.breakpoints = d.breakpoints
  running : d'.running = d.running
  stopped : d'.stopped = d.stopped

theorem Resembles.counter (h : d.Resembles d') : d'.counter = d.counter :=
  congrArg Machine.counter h.machine

theorem Resembles.step (h : d.Resembles d') : d.step.Resembles d'.step := by
  cases hd : d.stopped with
  | true =>
    rw [step_of_stopped hd, step_of_stopped (h.stopped.trans hd)]
    exact ⟨h.machine, h.image, h.input, h.breakpoints, rfl, h.stopped⟩
  | false =>
    obtain ⟨status, hstep⟩ := step_eq hd
    obtain ⟨status', hstep'⟩ := step_eq (h.stopped.trans hd)
    rw [hstep, hstep', h.machine, h.running]
    exact ⟨rfl, h.image, h.input, h.breakpoints, rfl, rfl⟩

theorem Resembles.started (h : d.Resembles d') : d.started.Resembles d'.started :=
  ⟨h.machine, h.image, h.input, h.breakpoints, rfl, h.stopped⟩

theorem Resembles.run (h : d.Resembles d') : d.run.Resembles d'.run := by
  rw [run_eq, run_eq, h.counter, h.breakpoints]
  split
  · exact h.started.step
  · exact h.started

theorem Resembles.tick (h : d.Resembles d') : d.tick.Resembles d'.tick := by
  unfold Debugger.tick
  rw [h.running, h.counter, h.breakpoints]
  split
  · split
    · exact ⟨h.machine, h.image, h.input, rfl, rfl, h.stopped⟩
    · exact h.step
  · exact h

theorem Resembles.placeBreakpoint (h : d.Resembles d') (address : UInt64) :
    (d.placeBreakpoint address).Resembles (d'.placeBreakpoint address) := by
  unfold Debugger.placeBreakpoint
  rw [h.breakpoints]
  split
  · exact h
  · exact ⟨h.machine, h.image, h.input, rfl, h.running, h.stopped⟩

theorem Resembles.toggleBreakpoint (h : d.Resembles d') :
    d.toggleBreakpoint.Resembles d'.toggleBreakpoint := by
  have hplace := h.placeBreakpoint d.counter
  unfold Debugger.toggleBreakpoint
  rw [h.breakpoints, h.counter]
  split
  · exact ⟨h.machine, h.image, h.input, rfl, h.running, h.stopped⟩
  · exact ⟨hplace.machine, hplace.image, hplace.input, hplace.breakpoints, hplace.running,
      hplace.stopped⟩

theorem Resembles.reset (h : d.Resembles d') : d.reset.Resembles d'.reset := by
  unfold Debugger.reset
  rw [h.image, h.input]
  exact ⟨rfl, rfl, rfl, h.breakpoints, rfl, rfl⟩

theorem Resembles.perform (h : d.Resembles d') (op : Operation) :
    (d.perform op).2.Resembles (d'.perform op).2 := by
  cases op with
  | step => exact h.step
  | run => exact h.run
  | tick => exact h.tick
  | pause => exact ⟨h.machine, h.image, h.input, h.breakpoints, rfl, h.stopped⟩
  | toggleBreakpoint => exact h.toggleBreakpoint
  | placeBreakpoint address => exact h.placeBreakpoint address
  | scrollTo cell => exact ⟨h.machine, h.image, h.input, h.breakpoints, h.running, h.stopped⟩
  | listing lines => exact h
  | draw width height => exact h
  | reset => exact h.reset

theorem Resembles.after (h : d.Resembles d') (ops : List Operation) :
    (d.after ops).Resembles (d'.after ops) := by
  induction ops generalizing d d' with
  | nil => exact h
  | cons op ops ih => exact ih (h.perform op)

theorem reset_resembles (h : d.breakpoints.Pairwise (· < ·)) :
    (d.breakpoints.foldl placeBreakpoint (ofImage d.image d.input)).Resembles d.reset := by
  rw [foldl_placeBreakpoint (d := ofImage d.image d.input) h]
  exact ⟨rfl, rfl, rfl, rfl, rfl, rfl⟩

/-- Whatever is done with a debugger, its image and input stay, and once its machine has stopped, it
stays as it is until a reset, with no running beyond the next step or tick. A reset cannot fail and
gives back the machine of a new debugger, and the two go on alike if they have the same
breakpoints. -/
theorem stopped_until_reset (image : Image) (input : List Char) (ops : List Operation) :
    let d := (ofImage image input).after ops
    d.image = image ∧ d.input = input ∧
    (d.stopped → ∀ more, .reset ∉ more →
      (d.after more).machine = d.machine ∧ (d.after more).stopped ∧
      ((d.after more).perform .step).2.running = false ∧
      ((d.after more).perform .tick).2.running = false) ∧
    (∃ m, Machine.load? image registerCount input = .ok m ∧ m = (ofImage image input).machine ∧
      (d.perform .reset).2 =
        { d with machine := m, stopped := false, running := false, status := .reset }) ∧
    ∀ more, ((d.breakpoints.foldl placeBreakpoint (ofImage image input)).after more).Resembles
      ((d.perform .reset).2.after more) := by
  intro d
  obtain ⟨himage, hinput⟩ : d.image = image ∧ d.input = input :=
    (ofImage image input).after_loaded ops
  refine ⟨himage, hinput, fun hd more hmore => ?_, ?_, fun more => ?_⟩
  · obtain ⟨hmachine, hstopped⟩ := after_of_stopped hd hmore
    exact ⟨hmachine, hstopped, running_step_of_stopped hstopped, running_tick_of_stopped hstopped⟩
  · refine ⟨_, rfl, rfl, ?_⟩
    show d.reset = _
    rw [reset, himage, hinput]
  · have hsorted : d.breakpoints.Pairwise (· < ·) :=
      after_keeps (I := fun d => d.breakpoints.Pairwise (· < ·))
        (fun _ op _ h => perform_pairwise h op) .nil
    have hlike := (reset_resembles hsorted).after more
    rwa [himage, hinput] at hlike

theorem stopped_until_reset_read :
    let d := (ofImage ⟨[], [⟨0, .loadV, [0, 0]⟩]⟩ []).after [.toggleBreakpoint, .run]
    d.stopped ∧ d.machine.tick = 1 ∧ .reset ∉ [Operation.run, .toggleBreakpoint, .tick] ∧
      (d.after [.run, .toggleBreakpoint, .tick]).machine = d.machine :=
  ⟨rfl, rfl, by decide, ((stopped_until_reset ⟨[], [⟨0, .loadV, [0, 0]⟩]⟩ []
    [.toggleBreakpoint, .run]).2.2.1 rfl [.run, .toggleBreakpoint, .tick] (by decide)).1⟩

end TickMachine.Debugger
