import Mathlib.Data.List.Forall2
import TickMachine.Proofs.Machine.Bare
import TickMachine.Proofs.Simulation.Bounded

/-! What of an image can influence a run: the values of its cells, and the opcodes of its
instructions with the arguments that their signatures name. A run of the bare image is the run of
the image, so images that are bare alike are run alike. -/

namespace TickMachine

def Word.SameInstruction (w w' : Word) : Prop :=
  w.opcode = w'.opcode ∧
    ∀ position < w.opcode.signature.length, w.arg? position = w'.arg? position

/-- Images that differ in nothing but indices, data tags, further arguments of cells, and arguments
of instructions behind their signatures. -/
structure Image.SameMeaning (image image' : Image) : Prop where
  data : List.Forall₂ (fun w w' => w.value = w'.value) image.data image'.data
  code : List.Forall₂ Word.SameInstruction image.code image'.code

def Image.bare (image : Image) : Image where
  data := image.data.map Word.bareCell
  code := image.code.map Word.bare

/-- Machines that look alike from outside, and whose cells have the same values. -/
structure Machine.Matches (m m' : Machine) : Prop where
  counter : m.counter = m'.counter
  tick : m.tick = m'.tick
  registers : m.path.registers = m'.path.registers
  address : m.path.address = m'.path.address
  buffer : m.path.buffer = m'.path.buffer
  isZero : m.path.isZero = m'.path.isZero
  cells : m.path.cells.map Word.value = m'.path.cells.map Word.value
  input : m.path.input = m'.path.input
  output : m.path.output = m'.path.output

theorem Word.SameInstruction.bare_eq {w w' : Word} (h : w.SameInstruction w') :
    w.bare = w'.bare := by
  obtain ⟨hop, hargs⟩ := h
  have htake : w.args.take w.opcode.signature.length =
      w'.args.take w.opcode.signature.length := by
    apply List.ext_getElem?
    intro position
    rw [List.getElem?_take, List.getElem?_take]
    split
    · next hlt => exact hargs position hlt
    · rfl
  rw [Word.bare, Word.bare, htake, hop]

theorem map_eq_map_of_forall₂ {α β : Type} {R : α → α → Prop} {f : α → β} {xs ys : List α}
    (hf : ∀ x y, R x y → f x = f y) (h : List.Forall₂ R xs ys) : xs.map f = ys.map f := by
  induction h with
  | nil => rfl
  | cons hx _ ih => rw [List.map_cons, List.map_cons, hf _ _ hx, ih]

theorem Image.SameMeaning.bare_eq {image image' : Image} (h : image.SameMeaning image') :
    image.bare = image'.bare := by
  have hcell (w w' : Word) (hw : w.value = w'.value) : w.bareCell = w'.bareCell := by
    rw [Word.bareCell, Word.bareCell, hw]
  have hinstruction (w w' : Word) (hw : w.SameInstruction w') : w.bare = w'.bare := hw.bare_eq
  have hdata := map_eq_map_of_forall₂ hcell h.data
  have hcode := map_eq_map_of_forall₂ hinstruction h.code
  rw [Image.bare, Image.bare, hdata, hcode]

namespace Machine

variable {m m' : Machine}

theorem matches_of_bare_eq (h : m.bare = m'.bare) : Matches m m' where
  counter := congrArg (·.counter) h
  tick := congrArg (·.tick) h
  registers := congrArg (·.path.registers) h
  address := congrArg (·.path.address) h
  buffer := congrArg (·.path.buffer) h
  isZero := congrArg (·.path.isZero) h
  cells := by
    have hvalue : Word.value ∘ Word.bareCell = Word.value := rfl
    have hcells := congrArg (·.path.cells.map Word.value) h
    simpa only [bare, DataPath.bare, Array.map_map, hvalue] using hcells
  input := congrArg (·.path.input) h
  output := congrArg (·.path.output) h

theorem snapshot_bare : m.bare.snapshot = m.snapshot := by
  have hopcode : m.bare.current?.map Word.opcode = m.current?.map Word.opcode := by
    rw [current?_bare, Option.map_map]
    rfl
  rw [snapshot, hopcode]
  rfl

theorem load_bare {image : Image} {registers : Nat} {input : List Char} :
    load image.bare registers input = (load image registers input).bare := by
  simp [load, start, DataPath.start, bare, DataPath.bare, Image.bare]

theorem isEndOfInput_bare {fault : Fault} : fault.bare.isEndOfInput = fault.isEndOfInput := by
  cases fault with
  | path fault => cases fault <;> rfl
  | _ => rfl

end Machine

namespace Simulation

def Fault.bare : Fault → Fault
  | .machine tick counter fault => .machine tick counter fault.bare
  | fault => fault

def Progress.bare (p : Progress) : Progress := { p with machine := p.machine.bare }

variable {w : Word} {m : Machine} {pending : List Char} {debugLimit : UInt64} {p : Progress}
  {image image' : Image}

theorem transfer_bare : transfer w.bare pending m.bare = transfer w pending m := by
  rw [transfer, transfer, Word.readsInput_bare, Word.writesOutput_bare]
  rfl

theorem clockEvent_bare : clockEvent debugLimit m.bare = clockEvent debugLimit m := by
  rw [clockEvent, clockEvent, Machine.snapshot_bare]
  rfl

def Ending.bare : Ending → Ending
  | .stopped stop => .stopped (stop.mapError Machine.Fault.bare)
  | .clockOverflow => .clockOverflow

theorem portEvents_bare (m m' : Machine) : portEvents m.bare m'.bare = portEvents m m' := by
  rw [portEvents, portEvents, Machine.current?_bare]
  cases m.current? with
  | none => rfl
  | some w =>
    have htransfer : transfer w.bare m.bare.path.input m'.bare = transfer w m.path.input m' :=
      transfer_bare
    simp only [Option.map_some, Option.toList_some, List.flatMap_singleton, htransfer]

theorem step_bare : Mirrors Progress.bare Machine.Fault.bare step step := by
  intro p
  obtain ⟨m, n, events⟩ := p
  rw [Progress.bare, step_apply, step_apply, Machine.step_bare m]
  cases Machine.step m with
  | ok o m' => simp only [seenBy, logged, portEvents_bare, Progress.bare]
  | error fault m' => rfl

theorem afterStep_bare (tick : UInt64)
    (result : EStateM.Result Machine.Fault Progress Machine.Outcome) :
    Progress.afterStep debugLimit tick (seenBy Progress.bare Machine.Fault.bare result) =
      ((Progress.afterStep debugLimit tick result).1.bare,
        (Progress.afterStep debugLimit tick result).2.map Ending.bare) := by
  cases result with
  | ok o p =>
    cases o with
    | executed op =>
      have htick : p.bare.machine.tick = p.machine.tick := rfl
      simp only [seenBy, Progress.afterStep, htick]
      split
      · rfl
      · simp [Progress.bare, clockEvent_bare]
    | halted => rfl
  | error fault p =>
    have htick : p.bare.machine.tick = p.machine.tick := rfl
    simp only [seenBy, Progress.afterStep, htick, Machine.isEndOfInput_bare]
    split
    · rfl
    · split <;> rfl

theorem next_bare (p : Progress) : p.bare.next debugLimit =
    ((p.next debugLimit).1.bare, (p.next debugLimit).2.map Ending.bare) := by
  obtain ⟨m, n, events⟩ := p
  show Progress.afterStep debugLimit m.tick (step (Progress.bare ⟨m, n + 1, events⟩)) = _
  rw [step_bare, afterStep_bare]
  rfl

theorem loop_bare (config : Config) (fuel : Nat) (p : Progress) :
    loop config fuel p.bare = ((loop config fuel p).1.bare, (loop config fuel p).2.bare) := by
  induction fuel generalizing p with
  | zero => rfl
  | succ fuel ih =>
    have htick : p.bare.machine.tick = p.machine.tick := rfl
    rw [loop, loop, htick, next_bare]
    split
    · rfl
    · cases p.next config.debugLimit with
      | mk p' ending =>
        cases ending with
        | none => exact ih p'
        | some ending => rfl

theorem simulate_bare (image : Image) (input : List Char) (config : Config) :
    simulate image.bare input config = ⟨(simulate image input config).events,
      (simulate image input config).outcome.mapError Fault.bare⟩ := by
  unfold simulate Machine.load?
  rw [Machine.load_bare]
  by_cases hr : config.registers = 0
  · simp only [hr, ↓reduceIte]
    rfl
  · have hloop := loop_bare config config.limit.toNat
      ⟨.load image config.registers input, 0, #[.started]⟩
    rw [Progress.bare] at hloop
    simp only [hr, ↓reduceIte, hloop]
    generalize loop config config.limit.toNat _ = ended
    obtain ⟨p, (fault | stop) | _⟩ := ended
    · rfl
    · rfl
    · rfl

/-- Only what the signature names can influence a run: images that mean the same are run with the
same events to the same report, or to faults that differ at most in the index they tell, and
machines that they are loaded into match after any number of steps. -/
theorem simulate_sameMeaning (h : image.SameMeaning image') (input : List Char) :
    (∀ config, (simulate image input config).events = (simulate image' input config).events ∧
      (simulate image input config).outcome.mapError Fault.bare =
        (simulate image' input config).outcome.mapError Fault.bare) ∧
    ∀ registers k, ((Machine.load image registers input).afterSteps k).Matches
      ((Machine.load image' registers input).afterSteps k) := by
  have hbare := h.bare_eq
  refine ⟨fun config => ?_, fun registers k => ?_⟩
  · have hrun := simulate_bare image input config
    rw [hbare, simulate_bare image' input config] at hrun
    obtain ⟨hevents, houtcome⟩ := Result.mk.inj hrun
    exact ⟨hevents.symm, houtcome.symm⟩
  · apply Machine.matches_of_bare_eq
    rw [← Machine.afterSteps_bare, ← Machine.afterSteps_bare, ← Machine.load_bare,
      ← Machine.load_bare, hbare]

theorem simulate_sameMeaning_fault : ∃ image image' : Image, image.SameMeaning image' ∧
    (simulate image [] ⟨1, 9, 0⟩).outcome =
      .error (.machine 3 2 (.path (.missingOperand 7 .jmp 0))) ∧
    (simulate image' [] ⟨1, 9, 0⟩).outcome =
      .error (.machine 3 2 (.path (.missingOperand 2 .jmp 0))) ∧
    (simulate image [] ⟨1, 9, 0⟩).outcome.mapError Fault.bare =
      (simulate image' [] ⟨1, 9, 0⟩).outcome.mapError Fault.bare ∧
    ∀ k, ((Machine.load image 1 []).afterSteps k).Matches
      ((Machine.load image' 1 []).afterSteps k) := by
  have hsame : Image.SameMeaning
      ⟨[⟨4, .number, []⟩], [⟨5, .mov, [0, 72, 9]⟩, ⟨6, .storeV, [1, 0]⟩, ⟨7, .jmp, []⟩]⟩
      ⟨[⟨0, .buffer, [0, 1]⟩], [⟨0, .mov, [0, 72]⟩, ⟨1, .storeV, [1, 0, 8]⟩, ⟨2, .jmp, []⟩]⟩ :=
    ⟨.cons rfl .nil,
      .cons ⟨rfl, by decide⟩ (.cons ⟨rfl, by decide⟩ (.cons ⟨rfl, by decide⟩ .nil))⟩
  obtain ⟨hrun, hsteps⟩ := simulate_sameMeaning hsame []
  exact ⟨_, _, hsame, rfl, rfl, (hrun ⟨1, 9, 0⟩).2, hsteps 1⟩

end Simulation
end TickMachine
