import Mathlib.Data.List.Forall2
import TickMachine.Proofs.DataPath.Faults

/-! Any sequence of operations on a data path, in orders that no instruction has and whether they
fail or not. What one of them can do is said once. From there a sequence keeps the shape of the
stores, takes its characters from the front of the input and adds its values to the end of the
output, one for each operation that has used the port. -/

namespace TickMachine.DataPath

inductive Call
  | latchAddress (w : Word) (phase : Phase)
  | latchBuffer (w : Word) (phase : Phase)
  | latchRegister (w : Word) (phase : Phase)
  | write (w : Word)
  | compare (w : Word)
  | setRegister (register value : Int64)
  | alu (op : Operation) (left right : Int64)

def Call.perform : Call → Action Unit
  | .latchAddress w phase => DataPath.latchAddress w phase
  | .latchBuffer w phase => DataPath.latchBuffer w phase
  | .latchRegister w phase => DataPath.latchRegister w phase
  | .write w => DataPath.write w
  | .compare w => DataPath.compare w
  | .setRegister register value => writeRegister register value
  | .alu op left right => do let _ ← DataPath.alu op left right

def Call.port? : Call → Option Port
  | .latchRegister w _ => if w.opcode = .loadV ∧ w.arg? 1 = some 0 then some .input else none
  | .write w => if w.opcode = .storeV ∧ w.arg? 0 = some 1 then some .output else none
  | _ => none

def after (d : DataPath) (call : Call) : DataPath :=
  match call.perform d with
  | .ok _ d' => d'
  | .error _ d' => d'

def afterCalls (d : DataPath) (calls : List Call) : DataPath := calls.foldl after d

/-- The port that a call has used. One that fails has used none. -/
def used? (d : DataPath) (call : Call) : Option Port :=
  match call.perform d with
  | .ok _ _ => call.port?
  | .error _ _ => none

def uses (port : Port) (d : DataPath) : List Call → List (DataPath × Call)
  | [] => []
  | call :: calls =>
    if d.used? call = some port then (d, call) :: uses port (d.after call) calls
    else uses port (d.after call) calls

/-! ### What one call does -/

inductive Effect (d : DataPath) (call : Call) : Option Port → DataPath → Prop
  | latches {d' : DataPath} (h : d.SameStores d') : Effect d call none d'
  | sets {d₁ d' : DataPath} {register value : Int64} (h : d.SameStores d₁)
      (hset : Assigns register value d₁ d') : Effect d call none d'
  | stores {d₁ d' : DataPath} {value : Int64} (h : d.SameStores d₁)
      (hstore : Stores value d₁ d') : Effect d call none d'
  | reads {w : Word} {phase : Phase} {register : Int64} {c : Char} {rest : List Char}
      {d' : DataPath} (hcall : call = .latchRegister w phase) (hr : w.arg? 0 = some register)
      (hinput : d.input = c :: rest)
      (hset : Assigns register (Int64.ofNat c.toNat) { d with input := rest } d') :
      Effect d call (some .input) d'
  | emits {w : Word} {source value : Int64} (hcall : call = .write w)
      (hs : w.arg? 1 = some source) (hv : d.register? source = some value) :
      Effect d call (some .output) { d with output := d.output.push value }

variable {w : Word} {phase : Phase} {d d' : DataPath} {call : Call} {port : Option Port}

theorem latchRegister_effect : Ends (latchRegister w phase) d
    (fun _ d' => Effect d (.latchRegister w phase) (Call.latchRegister w phase).port? d')
    fun _ d' => d.SameStores d' := by
  refine ⟨?_, latchRegister_frame.2⟩
  suffices h : Ends (latchRegister w phase) d
      (fun _ d' => Effect d (.latchRegister w phase) (Call.latchRegister w phase).port? d')
      fun _ _ => True from h.1
  unfold latchRegister Call.port?
  simp only [← Word.readsInput_iff]
  split
  · simp
    exact fun r hr c rest d' hinput hset => .reads rfl hr hinput hset
  · refine ends_bind.2 ⟨fun x d₁ h => ?_, fun _ _ _ => trivial⟩
    obtain ⟨register, value⟩ := x
    change Ends (writeRegister register value) d₁ _ _
    have hsame := registerResult_frame.1 _ d₁ h
    rw [ends_writeRegister]
    exact ⟨fun d' hset => .sets hsame hset, fun _ => trivial⟩

def Writes (w : Word) (d d' : DataPath) : Prop :=
  if w.opcode = .storeV ∧ w.arg? 0 = some 1 then
    ∃ source value, w.arg? 1 = some source ∧ d.register? source = some value ∧
      { d with output := d.output.push value } = d'
  else ∃ value d₁, d.SameStores d₁ ∧ d₁.address = d.address ∧ Stores value d₁ d'

theorem write_writes :
    Ends (write w) d (fun _ d' => Writes w d d') fun _ d' => d.SameStores d' := by
  refine ⟨?_, write_frame.2⟩
  suffices h : Ends (write w) d (fun _ d' => Writes w d d') fun _ _ => True from h.1
  unfold write Writes
  simp only [← Word.writesOutput_iff]
  split
  · simp
    exact fun s hs v hv => ⟨s, hs, v, hv, rfl⟩
  · cases hop : w.opcode <;> simp
    case storeV => exact fun _ _ v _ d' h => ⟨v, d, .refl d, rfl, h⟩
    case storeR => exact fun _ _ v _ d' h => ⟨v, d, .refl d, rfl, h⟩
    case addMmr => exact fun _ _ _ _ n _ d' h => ⟨n, _, sameStores_latchFlag n, rfl, h⟩

theorem write_effect : Ends (write w) d
    (fun _ d' => Effect d (.write w) (Call.write w).port? d') fun _ d' => d.SameStores d' := by
  have hport : (Call.write w).port? =
      if w.opcode = .storeV ∧ w.arg? 0 = some 1 then some .output else none := rfl
  refine write_writes.mono (fun _ d' h => ?_) fun _ _ h => h
  rw [hport]
  unfold Writes at h
  split at h
  · next hemits =>
    obtain ⟨s, v, hs, hv, rfl⟩ := h
    rw [if_pos hemits]
    exact .emits rfl hs hv
  · next hstores =>
    obtain ⟨v, d₁, hsame, -, hstore⟩ := h
    rw [if_neg hstores]
    exact .stores hsame hstore

theorem perform_effect : Ends call.perform d (fun _ d' => Effect d call call.port? d')
    fun _ d' => d.SameStores d' := by
  cases call with
  | latchAddress w phase =>
    exact latchAddress_frame.mono (fun _ _ h => .latches h) fun _ _ h => h ▸ .refl _
  | latchBuffer w phase =>
    exact latchBuffer_frame.mono (fun _ _ h => .latches h) fun _ _ h => h ▸ .refl _
  | latchRegister w phase => exact latchRegister_effect
  | write w => exact write_effect
  | compare w => exact compare_frame.mono (fun _ _ h => .latches h) fun _ _ h => h ▸ .refl _
  | setRegister register value =>
    exact ends_writeRegister.2 ⟨fun d' h => .sets (.refl d) h, fun _ => .refl d⟩
  | alu op left right =>
    refine ends_bind.2 (ends_alu.2 ⟨fun v _ => ?_, fun _ _ => .refl d⟩)
    exact ends_pure.2 (.latches (sameStores_latchFlag v))

theorem effect_after (d : DataPath) (call : Call) :
    Effect d call (d.used? call) (d.after call) := by
  have heffect := @perform_effect d call
  unfold used? after
  cases h : call.perform d with
  | ok u d' => exact heffect.1 u d' h
  | error e d' => exact .latches (heffect.2 e d' h)

inductive ChangesOne (d d' : DataPath) : Prop
  | neither (hregisters : d'.registers = d.registers) (hcells : d'.cells = d.cells)
  | register (position : Nat) (value : Int64)
      (h : d'.registers = d.registers.setIfInBounds position value) (hcells : d'.cells = d.cells)
  | cell (position : Nat) (value : Int64) (hregisters : d'.registers = d.registers)
      (h : d'.cells = d.cells.modify position (·.setValue value))

theorem Effect.changesOne (h : Effect d call port d') : ChangesOne d d' := by
  cases h with
  | latches h => exact .neither h.registers h.cells
  | sets h hset =>
    obtain ⟨i, -, rfl⟩ := hset
    exact .register i _ (by rw [h.registers]) h.cells
  | stores h hstore =>
    obtain ⟨i, -, rfl⟩ := hstore
    exact .cell i _ h.registers (by rw [h.cells])
  | reads _ _ _ hset =>
    obtain ⟨i, -, rfl⟩ := hset
    exact .register i _ rfl rfl
  | emits => exact .neither rfl rfl

def Takes (use : DataPath × Call) (c : Char) : Prop :=
  ∃ w phase register, use.2 = .latchRegister w phase ∧ w.arg? 0 = some register ∧
    (use.1.after use.2).register? register = some (Int64.ofNat c.toNat)

def Sends (use : DataPath × Call) (value : Int64) : Prop :=
  ∃ w source, use.2 = .write w ∧ w.arg? 1 = some source ∧ use.1.register? source = some value

theorem Effect.input (h : Effect d call port d') (hport : port ≠ some .input) :
    d'.input = d.input := by
  cases h with
  | latches h => exact h.input
  | sets h hset => exact hset.input.trans h.input
  | stores h hstore => exact hstore.input.trans h.input
  | reads => exact absurd rfl hport
  | emits => rfl

theorem Effect.output (h : Effect d call port d') (hport : port ≠ some .output) :
    d'.output = d.output := by
  cases h with
  | latches h => exact h.output
  | sets h hset => exact hset.output.trans h.output
  | stores h hstore => exact hstore.output.trans h.output
  | reads _ _ _ hset => exact hset.output
  | emits => exact absurd rfl hport

theorem input_after (h : d.used? call = some .input) :
    ∃ c, d.input = c :: (d.after call).input ∧ Takes (d, call) c := by
  have heffect := effect_after d call
  rw [h] at heffect
  cases heffect with
  | reads hcall hr hinput hset =>
    refine ⟨_, ?_, _, _, _, hcall, hr, hset.register?⟩
    rw [hset.input, hinput]

theorem output_after (h : d.used? call = some .output) :
    ∃ value, (d.after call).output.toList = d.output.toList ++ [value] ∧
      Sends (d, call) value := by
  have heffect := effect_after d call
  rw [h] at heffect
  generalize d.after call = d' at heffect ⊢
  cases heffect with
  | emits hcall hs hv => exact ⟨_, Array.toList_push, _, _, hcall, hs, hv⟩

/-! ### What a sequence of calls does -/

structure KeepsShape (d d' : DataPath) : Prop where
  registers : d'.registers.size = d.registers.size
  cells : d'.cells.size = d.cells.size
  cell : ∀ (i : Nat) (cell : Word), d.cells[i]? = some cell → ∃ cell', d'.cells[i]? = some cell' ∧
    (cell' = cell ∨ ∃ value, cell' = ⟨cell.index, cell.opcode, value :: cell.args.tail⟩)

theorem KeepsShape.refl (d : DataPath) : d.KeepsShape d :=
  ⟨rfl, rfl, fun _ cell h => ⟨cell, h, .inl rfl⟩⟩

theorem KeepsShape.trans {d₁ : DataPath} (h : d.KeepsShape d₁) (h' : d₁.KeepsShape d') :
    d.KeepsShape d' := by
  refine ⟨h'.registers.trans h.registers, h'.cells.trans h.cells, fun i cell hi => ?_⟩
  obtain ⟨cell₁, hi₁, hcell₁⟩ := h.cell i cell hi
  obtain ⟨cell₂, hi₂, hcell₂⟩ := h'.cell i cell₁ hi₁
  refine ⟨cell₂, hi₂, ?_⟩
  rcases hcell₂ with rfl | ⟨value, rfl⟩
  · exact hcell₁
  · rcases hcell₁ with rfl | ⟨_, rfl⟩
    · exact .inr ⟨value, rfl⟩
    · exact .inr ⟨value, rfl⟩

theorem ChangesOne.keepsShape (h : d.ChangesOne d') : d.KeepsShape d' := by
  cases h with
  | neither hregisters hcells =>
    exact ⟨by rw [hregisters], by rw [hcells], fun _ cell hi => ⟨cell, hcells ▸ hi, .inl rfl⟩⟩
  | register position value h hcells =>
    exact ⟨by rw [h, Array.size_setIfInBounds], by rw [hcells],
      fun _ cell hi => ⟨cell, hcells ▸ hi, .inl rfl⟩⟩
  | cell position value hregisters h =>
    refine ⟨by rw [hregisters], by rw [h, Array.size_modify], fun i cell hi => ?_⟩
    rw [h, Array.getElem?_modify, hi]
    split
    · exact ⟨_, rfl, .inr ⟨value, rfl⟩⟩
    · exact ⟨cell, rfl, .inl rfl⟩

/-- What calls leave of `d`, with one character gone and one value added for each use of a port. -/
structure Serves (d : DataPath) (calls : List Call) (d' : DataPath) : Prop where
  shape : d.KeepsShape d'
  input : ∃ taken, d.input = taken ++ d'.input ∧ List.Forall₂ Takes (uses .input d calls) taken
  output : ∃ sent, d'.output.toList = d.output.toList ++ sent ∧
    List.Forall₂ Sends (uses .output d calls) sent

theorem afterCalls_serves (d : DataPath) (calls : List Call) :
    d.Serves calls (d.afterCalls calls) := by
  induction calls generalizing d with
  | nil => exact ⟨.refl d, ⟨[], rfl, .nil⟩, ⟨[], (List.append_nil _).symm, .nil⟩⟩
  | cons call calls ih =>
    obtain ⟨hshape, ⟨taken, hinput, htaken⟩, ⟨sent, houtput, hsent⟩⟩ := ih (d.after call)
    have heffect := effect_after d call
    refine ⟨heffect.changesOne.keepsShape.trans hshape, ?_, ?_⟩
    · by_cases hport : d.used? call = some .input
      · obtain ⟨c, hc, htakes⟩ := input_after hport
        rw [uses, if_pos hport, hc, hinput]
        exact ⟨c :: taken, rfl, .cons htakes htaken⟩
      · rw [uses, if_neg hport, ← heffect.input hport]
        exact ⟨taken, hinput, htaken⟩
    · by_cases hport : d.used? call = some .output
      · obtain ⟨value, hvalue, hsends⟩ := output_after hport
        rw [hvalue, List.append_assoc] at houtput
        rw [uses, if_pos hport]
        exact ⟨value :: sent, houtput, .cons hsends hsent⟩
      · rw [uses, if_neg hport, ← heffect.output hport]
        exact ⟨sent, houtput, hsent⟩

theorem cell_of_write (h : write w d = .ok () d') (hport : (Call.write w).port? = none) :
    ∃ (position : Nat) (cell : Word) (value : Int64),
      place? d.address d.cells.size = some position ∧ d.cells[position]? = some cell ∧
        d'.cells[position]? = some ⟨cell.index, cell.opcode, value :: cell.args.tail⟩ := by
  have hends := write_writes.1 _ _ h
  unfold Writes at hends
  split at hends
  · next hemits =>
    rw [Call.port?, if_pos hemits] at hport
    cases hport
  · obtain ⟨value, d₁, hsame, haddress, i, hi, rfl⟩ := hends
    rw [haddress, hsame.cells] at hi
    have hlt := (place?_eq_some_iff.1 hi).2
    refine ⟨i, d.cells[i], value, hi, Array.getElem?_eq_getElem hlt, ?_⟩
    rw [Array.getElem?_modify, hsame.cells, if_pos rfl, Array.getElem?_eq_getElem hlt]
    rfl

/-- Whatever is asked of a data path, its stores keep their shape, the input loses one character for
each load from the port and the output gains one value for each store to it. A single call changes a
register or the value of a cell or neither, and a write that is not for the port gives the selected
cell its value, as the only argument where it had none. -/
theorem calls_serve (d : DataPath) (calls : List Call) :
    d.Serves calls (d.afterCalls calls) ∧ (∀ call, d.ChangesOne (d.after call)) ∧
    ∀ w d', write w d = .ok () d' → (Call.write w).port? = none →
      ∃ (position : Nat) (cell : Word) (value : Int64),
        place? d.address d.cells.size = some position ∧ d.cells[position]? = some cell ∧
          d'.cells[position]? = some ⟨cell.index, cell.opcode, value :: cell.args.tail⟩ :=
  ⟨afterCalls_serves d calls, fun call => (effect_after d call).changesOne,
    fun _ _ => cell_of_write⟩

theorem calls_serve_once :
    (∃ taken, ['a', 'b'] = taken ++ ['b'] ∧ taken.length = 1) ∧
    ∃ (position : Nat) (cell : Word) (value : Int64), place? 0 1 = some position ∧
      #[(⟨0, .number, []⟩ : Word)][position]? = some cell ∧
      #[(⟨0, .number, [0]⟩ : Word)][position]? =
        some ⟨cell.index, cell.opcode, value :: cell.args.tail⟩ := by
  have hcalls := calls_serve (.start #[⟨0, .number, []⟩] 1 ['a', 'b'])
    [.latchRegister ⟨0, .loadV, [0, 0]⟩ .second, .latchRegister ⟨0, .loadV, [9, 0]⟩ .first]
  obtain ⟨taken, hinput, htaken⟩ := hcalls.1.input
  exact ⟨⟨taken, hinput, htaken.length_eq.symm⟩, hcalls.2.2 ⟨0, .storeR, [0, 0]⟩ _ rfl rfl⟩

end TickMachine.DataPath
