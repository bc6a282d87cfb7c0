import TickMachine.Proofs.Machine.SignalRun
import TickMachine.Simulation.Run

/-! What the signals of an instruction log. At most one of them uses a port, and after it no signal
fails, so the log of an instruction is that of one transfer or of none. -/

namespace TickMachine.Simulation

variable {α β : Type} {w : Word} {m m' : Machine} {n : Nat} {events : Array Event}
  {pending : List Char}

/-- The transfer over a port that the word `w` makes, if it is executed with `pending` input and
leaves `m` behind. -/
def transfer (w : Word) (pending : List Char) (m : Machine) : List Event :=
  if w.readsInput then pending.head?.toList.map .consumed
  else if w.writesOutput then m.path.output.back?.toList.map .emitted
  else []

def logged (n : Nat) (events : Array Event) (es : Machine → List Event) :
    EStateM.Result Machine.Fault Machine α → EStateM.Result Machine.Fault Progress α
  | .ok a m => .ok a ⟨m, n, events ++ es m⟩
  | .error fault m => .error fault ⟨m, n, events⟩

theorem onMachine_apply (cycle : Machine.Cycle α) :
    onMachine cycle ⟨m, n, events⟩ = logged n events (fun _ => []) (cycle m) := by
  rw [onMachine]
  cases cycle m <;> simp [logged]

theorem onMachine_bind (cycle : Machine.Cycle α) (f : α → Machine.Cycle β) :
    onMachine (cycle >>= f) = onMachine cycle >>= fun a => onMachine (f a) := by
  funext p
  rw [bind_apply, onMachine, onMachine, bind_apply]
  cases cycle p.machine with
  | ok a m' => rfl
  | error fault m' => rfl

theorem onMachine_forM (steps : List MicroStep) (f : MicroStep → Machine.Cycle Unit) :
    onMachine (steps.forM f) = steps.forM fun s => onMachine (f s) := by
  induction steps with
  | nil => rfl
  | cons s steps ih =>
    show onMachine (f s >>= fun _ => steps.forM f) = onMachine (f s) >>= fun _ => steps.forM _
    rw [onMachine_bind, ih]

def passed (w : Word) (s : MicroStep) (pending : List Char) (m : Machine) : List Event :=
  match s with
  | .latchRegister _ => if w.readsInput then pending.head?.toList.map .consumed else []
  | .write => if w.writesOutput then m.path.output.back?.toList.map .emitted else []
  | _ => []

theorem microStep_apply (s : MicroStep) : microStep w s ⟨m, n, events⟩ =
    logged n events (passed w s m.path.input) (Machine.microStep w s m) := by
  unfold microStep
  rw [get_bind_apply, bind_apply, onMachine]
  cases Machine.microStep w s m with
  | error fault m' => rfl
  | ok a m' =>
    cases s with
    | latchRegister phase =>
      by_cases h : w.readsInput <;> simp [h, logged, passed, log]
    | write => by_cases h : w.writesOutput <;> simp [h, logged, passed, log]
    | _ => simp [logged, passed]

theorem passed_of_isQuiet {s : MicroStep} (hs : s.isQuiet) : passed w s pending m = [] := by
  cases s with
  | latchRegister phase => cases hs
  | write => cases hs
  | _ => rfl

theorem microStep_of_passed {s : MicroStep} (h : ∀ pending m, passed w s pending m = []) :
    microStep w s = onMachine (Machine.microStep w s) := by
  funext p
  have hnone : passed w s p.machine.path.input = fun _ => [] := funext (h _)
  exact (microStep_apply s).trans (hnone ▸ (onMachine_apply _).symm)

theorem microSteps_apply {front : List MicroStep} {s : MicroStep}
    (hfront : ∀ t ∈ front, t.isQuiet) :
    (front ++ [s]).forM (microStep w) ⟨m, n, events⟩ =
      logged n events (passed w s m.path.input) ((front ++ [s]).forM (Machine.microStep w) m) := by
  induction front generalizing m with
  | nil =>
    show (microStep w s >>= pure) _ = logged n events _ ((Machine.microStep w s >>= pure) m)
    rw [bind_pure, bind_pure, microStep_apply]
  | cons t front ih =>
    have ht : t.isQuiet := hfront t (List.mem_cons_self ..)
    have hrest := fun t ht => hfront t (List.mem_cons_of_mem _ ht)
    rw [List.cons_append, forM_cons_apply, forM_cons_apply, bind_apply, bind_apply,
      microStep_of_passed fun _ _ => passed_of_isQuiet ht, onMachine]
    cases hstep : Machine.microStep w t m with
    | error fault m₁ => rfl
    | ok u m₁ =>
      obtain ⟨d, hd, rfl⟩ := Machine.microStep_eq_ok_iff.1 hstep
      have hinput : d.input = m.path.input :=
        ((Machine.signalOf_quiet_frame ht).1 _ _ hd).input
      refine (ih hrest).trans ?_
      show logged n events (passed w s d.input) _ = _
      rw [hinput]

theorem transfer_of_not (hreads : w.readsInput = false) (hwrites : w.writesOutput = false) :
    transfer w pending = fun _ => [] := by
  funext m
  simp [transfer, hreads, hwrites]

theorem transfer_of_microProgram (h : w.opcode.microProgram? = none) :
    transfer w pending = fun _ => [] := by
  have hreads : w.readsInput = false := Bool.eq_false_iff.2 fun hreads => by
    rw [(Word.readsInput_iff.1 hreads).1] at h
    cases h
  have hwrites : w.writesOutput = false := Bool.eq_false_iff.2 fun hwrites => by
    rw [(Word.writesOutput_iff.1 hwrites).1] at h
    cases h
  exact transfer_of_not hreads hwrites

theorem exists_port_steps (h : w.readsInput ∨ w.writesOutput) :
    ∃ front s, w.opcode.microProgram? = some (front ++ [s]) ∧ (∀ t ∈ front, t.isQuiet) ∧
      ∀ pending, passed w s pending = transfer w pending := by
  rcases h with h | h
  · have hop := (Word.readsInput_iff.1 h).1
    refine ⟨[.latchAddress .first, .tick], .latchRegister .first, by rw [hop]; rfl, by decide, ?_⟩
    intro pending
    funext m
    simp [passed, transfer, h]
  · have hop := (Word.writesOutput_iff.1 h).1
    have hreads : w.readsInput = false :=
      Bool.eq_false_iff.2 fun hreads => by cases hop.symm.trans (Word.readsInput_iff.1 hreads).1
    refine ⟨[.latchAddress .first, .tick], .write, by rw [hop]; rfl, by decide, ?_⟩
    intro pending
    funext m
    simp [passed, transfer, h, hreads]

theorem execute_of_microProgram {steps : List MicroStep} (h : w.opcode.microProgram? = some steps) :
    execute w = do
      steps.forM (microStep w)
      onMachine Machine.advance
      onMachine Machine.passTick
      return .executed w.opcode := by
  rw [execute, h]

theorem execute_of_not (hreads : w.readsInput = false) (hwrites : w.writesOutput = false) :
    execute w = onMachine (Machine.execute w) := by
  have hsteps : microStep w = fun s => onMachine (Machine.microStep w s) := by
    funext s
    refine microStep_of_passed fun pending m => ?_
    cases s <;> simp [passed, hreads, hwrites]
  cases hp : w.opcode.microProgram? with
  | none => rw [execute, hp]
  | some steps =>
    rw [execute_of_microProgram hp, Machine.execute_of_microProgram hp, onMachine_bind,
      onMachine_forM, hsteps]
    rfl

theorem execute_apply (w : Word) : execute w ⟨m, n, events⟩ =
    logged n events (transfer w m.path.input) (Machine.execute w m) := by
  by_cases h : w.readsInput ∨ w.writesOutput
  · obtain ⟨front, s, hp, hfront, hpassed⟩ := exists_port_steps h
    rw [execute_of_microProgram hp, Machine.execute_of_microProgram hp, bind_apply, bind_apply,
      microSteps_apply hfront, hpassed]
    cases (front ++ [s]).forM (Machine.microStep w) m <;> rfl
  · simp only [not_or, Bool.not_eq_true] at h
    rw [execute_of_not h.1 h.2, onMachine_apply, transfer_of_not h.1 h.2]

def portEvents (m m' : Machine) : List Event :=
  m.current?.toList.flatMap fun w => transfer w m.path.input m'

theorem portEvents_of_current (hw : m.current? = some w) :
    portEvents m = transfer w m.path.input := by
  funext m'
  rw [portEvents, hw, Option.toList_some, List.flatMap_singleton]

theorem portEvents_of_halted (h : Machine.step m = .ok .halted m') : portEvents m m' = [] := by
  obtain ⟨w, hw, hexec⟩ := Machine.step_eq_ok_iff.1 h
  cases hp : w.opcode.microProgram? with
  | none => rw [portEvents_of_current hw, transfer_of_microProgram hp]
  | some steps => simp [Machine.execute_of_microProgram hp] at hexec

/-- A step does to the machine what it does without a log, and logs its transfer. -/
theorem step_apply (m : Machine) (n : Nat) (events : Array Event) :
    step ⟨m, n, events⟩ = logged n events (portEvents m) (Machine.step m) := by
  rw [step, get_bind_apply]
  cases hw : m.current? with
  | none =>
    show onMachine Machine.step _ = _
    rw [onMachine_apply, Machine.step_of_outside hw]
    rfl
  | some w =>
    rw [Machine.step_of_current hw, portEvents_of_current hw]
    exact execute_apply w

end TickMachine.Simulation
