import TickMachine.Proofs.Machine.Room
import TickMachine.Proofs.Simulation.Bounded

/-! Runs with more room. A run that comes to a report has not been refused anything, so it is the
same run with more registers, cells and words, and with more input unless it has waited for some. -/

namespace TickMachine

open Simulation (Stop)

/-- The ends of a run that the room does not put off. -/
def Room.Keeps (room : Room) : Except Machine.Fault Stop → Prop
  | .error _ => False
  | .ok .endOfInput => room.input = []
  | .ok _ => True

namespace Machine

variable {room : Room} {m m' : Machine}

theorem next_widen (room : Room) (h : ∀ stop, m.ending? = some stop → room.Keeps stop) :
    (m.widen room).ending? = m.ending? ∧ (m.widen room).next = m.next.widen room := by
  cases hstep : step m with
  | ok o m' =>
    have hwide : step (m.widen room) = .ok o (m'.widen room) := step_widen hstep
    simp only [ending?, next, hstep, hwide]
    cases o <;> simp
  | error fault m' =>
    -- The room keeps no failure but a read in vain, which it must not give an input.
    have hkeeps := h _ (by rw [ending?, hstep])
    cases hend : fault.isEndOfInput with
    | false =>
      rw [hend] at hkeeps
      exact hkeeps.elim
    | true =>
      rw [hend] at hkeeps
      obtain rfl : fault = .path .endOfInput := isEndOfInput_iff.1 hend
      have hawaits := awaitsInput_of_step hstep
      have hwide : step (m.widen room) = .error (.path .endOfInput) (m.waited.widen room) :=
        step_of_awaitsInput (hawaits.widen hkeeps)
      rw [step_of_awaitsInput hawaits] at hstep
      obtain ⟨-, rfl⟩ := EStateM.Result.error.inj hstep
      simp only [ending?, next, step_of_awaitsInput hawaits, hwide, and_self]

theorem clockedEnding?_widen (room : Room) (h : ∀ ending, m.clockedEnding? = some ending →
      ∃ stop, ending = .stopped stop ∧ room.Keeps stop) :
    (m.widen room).clockedEnding? = m.clockedEnding? ∧
      (m.widen room).next = m.next.widen room := by
  by_cases hclock : m.next.tick < m.tick
  · obtain ⟨stop, hstop, -⟩ := h .clockOverflow (if_pos hclock)
    cases hstop
  · have hsame : m.clockedEnding? = m.ending?.map .stopped := if_neg hclock
    obtain ⟨hending, hnext⟩ := next_widen (m := m) room fun stop hstop => by
      obtain ⟨_, heq, hkeeps⟩ := h (.stopped stop) (by rw [hsame, hstop, Option.map_some])
      exact Simulation.Ending.stopped.inj heq ▸ hkeeps
    have hticks : (m.widen room).next.tick = m.next.tick := by rw [hnext]; rfl
    refine ⟨?_, hnext⟩
    rw [hsame, ← hending, clockedEnding?, hticks]
    exact if_neg hclock

end Machine

namespace Simulation

variable {room : Room} {m : Machine} {fuel n : Nat} {stop : Except Machine.Fault Stop}
  {config config' : Config} {events : Array Event} {p : Progress} {image : Image}
  {input : List Char} {r : Report}

theorem loop_widen (h : loop config fuel ⟨m, n, events⟩ = (p, .stopped stop))
    (hstop : room.Keeps stop) (hlimit : config'.limit = config.limit) (events' : Array Event) :
    ∃ events₁, loop config' fuel ⟨m.widen room, n, events'⟩ =
      (⟨p.machine.widen room, p.instructions, events₁⟩, .stopped stop) := by
  induction fuel generalizing m n events events' with
  | zero =>
    obtain ⟨rfl, hending⟩ := Prod.mk.inj h
    exact ⟨events', by rw [loop, hending]⟩
  | succ fuel ih =>
    by_cases hm : config.limit ≤ m.tick
    · have hwide : config'.limit ≤ (m.widen room).tick := hlimit ▸ hm
      rw [loop, if_pos hm] at h
      obtain ⟨rfl, hending⟩ := Prod.mk.inj h
      exact ⟨events', by rw [loop, if_pos hwide, hending]⟩
    · have hlt : m.tick < config.limit := UInt64.not_le.1 hm
      have hwide : (m.widen room).tick < config'.limit := hlimit ▸ hlt
      rw [loop_succ hlt] at h
      cases hend : m.clockedEnding? with
      | none =>
        obtain ⟨hending, hnext⟩ := Machine.clockedEnding?_widen (m := m) room (by simp [hend])
        rw [hend] at h hending
        obtain ⟨events₁, hrest⟩ := ih h _
        exact ⟨events₁, by rw [loop_succ hwide, hending, hnext, ← hrest]⟩
      | some ending =>
        rw [hend] at h
        obtain ⟨rfl, rfl⟩ := Prod.mk.inj h
        obtain ⟨hending, hnext⟩ :=
          Machine.clockedEnding?_widen (m := m) room (by simp [hend, hstop])
        rw [hend] at hending
        exact ⟨_, by rw [loop_succ hwide, hending, hnext]⟩

theorem load_widen (room : Room) (registers : Nat) :
    .load ⟨image.data ++ room.cells, image.code ++ room.words⟩ (registers + room.registers)
      (input ++ room.input) = (Machine.load image registers input).widen room := by
  simp [Machine.load, Machine.start, DataPath.start, Machine.widen, DataPath.widen]

theorem simulate_eq_ok_iff : (simulate image input config).outcome = .ok r ↔
    config.registers ≠ 0 ∧ ∃ p stop, loop config config.limit.toNat
      ⟨.load image config.registers input, 0, #[.started]⟩ = (p, .stopped (.ok stop)) ∧
        report config p stop = r := by
  unfold simulate Machine.load?
  by_cases hr : config.registers = 0
  · simp [hr]
  · simp only [hr, ↓reduceIte, ne_eq, not_false_eq_true, true_and]
    generalize loop config config.limit.toNat _ = ended
    obtain ⟨p, (fault | stop) | _⟩ := ended
    · simp
    · simp only [Except.ok.injEq, Prod.mk.injEq, Ending.stopped.injEq, and_assoc]
      constructor
      · intro hp
        exact ⟨p, stop, rfl, rfl, hp⟩
      · rintro ⟨_, _, rfl, rfl, hp⟩
        exact hp
    · simp

/-- Giving a program more room does not change a run that did not need it. -/
theorem simulate_widen (h : (simulate image input config).outcome = .ok r) (room : Room)
    (hinput : r.stop = .endOfInput → room.input = []) :
    (simulate ⟨image.data ++ room.cells, image.code ++ room.words⟩ (input ++ room.input)
        { config with registers := config.registers + room.registers }).outcome =
      .ok { r with registers := r.registers ++ List.replicate room.registers 0 } := by
  obtain ⟨hr, p, stop, hloop, rfl⟩ := simulate_eq_ok_iff.1 h
  have hkeeps : room.Keeps (.ok stop) := by
    cases stop with
    | endOfInput => exact hinput rfl
    | _ => trivial
  let wider : Config := { config with registers := config.registers + room.registers }
  obtain ⟨events, hwide⟩ := loop_widen hloop hkeeps (show wider.limit = config.limit from rfl)
    #[.started]
  rw [← load_widen] at hwide
  refine simulate_eq_ok_iff.2 ⟨?_, _, stop, hwide, ?_⟩
  · exact Nat.ne_of_gt (Nat.add_pos_left (Nat.pos_of_ne_zero hr) _)
  · have hregisters : (p.machine.widen room).path.registers.toList =
        p.machine.path.registers.toList ++ List.replicate room.registers 0 := by
      simp [Machine.widen, DataPath.widen]
    rw [report, hregisters]
    rfl

theorem simulate_widen_load :
    (simulate ⟨[⟨0, .number, [0]⟩, ⟨1, .number, [0]⟩, ⟨2, .number, [7]⟩],
      [⟨0, .loadV, [0, 2]⟩, ⟨1, .hlt, []⟩]⟩ [] ⟨1, 9, 0⟩).outcome =
        .ok ⟨[], 2, 2, .halted, false, [7]⟩ ∧
    (simulate ⟨[⟨0, .number, [0]⟩, ⟨1, .number, [0]⟩, ⟨2, .number, [7]⟩, ⟨3, .number, [8]⟩],
      [⟨0, .loadV, [0, 2]⟩, ⟨1, .hlt, []⟩, ⟨2, .inc, [0]⟩]⟩ ['a'] ⟨3, 9, 0⟩).outcome =
        .ok ⟨[], 2, 2, .halted, false, [7, 0, 0]⟩ := by
  have h : (simulate ⟨[⟨0, .number, [0]⟩, ⟨1, .number, [0]⟩, ⟨2, .number, [7]⟩],
      [⟨0, .loadV, [0, 2]⟩, ⟨1, .hlt, []⟩]⟩ [] ⟨1, 9, 0⟩).outcome =
      .ok ⟨[], 2, 2, .halted, false, [7]⟩ := rfl
  exact ⟨h, simulate_widen h ⟨2, [⟨3, .number, [8]⟩], [⟨2, .inc, [0]⟩], ['a']⟩ nofun⟩

end Simulation
end TickMachine
