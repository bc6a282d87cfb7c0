import TickMachine.Proofs.DataPath.Flag
import TickMachine.Proofs.Machine.Flow

/-! The zero flag along a run. What a word makes the arithmetic unit yield is stated in exact
integers, for steps that fail as well; a step leaves the flag that its results leave, and a
conditional jump goes by the last decisive result of the whole run. -/

namespace TickMachine

open Numeric DataPath

def Word.held? (w : Word) (d : DataPath) (position : Nat) : Option Int64 :=
  (w.arg? position).bind d.register?

def Opcode.usesAlu : Opcode → Bool
  | .jzR | .cmp | .inc | .next | .addMmr | .modRrv | .linear | .linearCont => true
  | _ => false

/-- The results of the arithmetic unit in a step at this word, in order. Where the step fails they
are those from before the fault; a value that does not fit a register is none. -/
def Word.results (w : Word) (d : DataPath) : List Int64 :=
  match w.opcode with
  | .cmp => Option.toList do
    let x ← w.held? d 0
    let v ← w.arg? 1
    return if x = v then 0 else 1
  | .jzR => Option.toList do
    let target ← w.arg? 0
    let x ← w.held? d 1
    if target.toInt < 0 then none else return if x = 0 then 0 else 1
  | .inc => Option.toList do
    let x ← w.held? d 0
    signed64? (x.toInt + 1)
  | .next => Option.toList do
    let x ← w.held? d 1
    signed64? (x.toInt + 1)
  | .addMmr => Option.toList do
    let x ← (w.arg? 1).bind d.cell?
    let _ ← w.arg? 0
    let y ← w.held? d 2
    signed64? (x.toInt + y.toInt)
  | .modRrv => Option.toList do
    let x ← w.held? d 1
    let _ ← w.arg? 0
    let v ← w.arg? 2
    if v = 0 then none else signed64? (x.toInt.fmod v.toInt)
  | .linear => Option.toList do
    let v ← w.arg? 1
    let x ← w.held? d 2
    let _ ← w.arg? 0
    signed64? (v.toInt * x.toInt)
  | .linearCont =>
    let product := do
      let v ← w.arg? 1
      let x ← w.held? d 2
      signed64? (v.toInt * x.toInt)
    let sum := do
      let k ← product
      let y ← w.held? d 0
      signed64? (k.toInt + y.toInt)
    product.toList ++ sum.toList
  | _ => []

namespace Machine

variable {w : Word} {s : MicroStep} {d : DataPath} {steps : List MicroStep}

theorem signalOf_keepsFlag (h : w.opcode.usesAlu = false) : KeepsFlag (signalOf w s) := by
  cases s with
  | latchAddress phase => exact latchAddress_keepsFlag
  | latchBuffer phase =>
    change KeepsFlag (latchBuffer w phase)
    unfold latchBuffer
    cases hop : w.opcode
    case addMmr | modRrv | linear | linearCont => cases hop ▸ h
    all_goals exact .bind .throw fun _ => .modify fun _ => rfl
  | latchRegister phase =>
    change KeepsFlag (latchRegister w phase)
    unfold latchRegister
    split
    · exact .bind .operand fun _ => .takeInput
    · refine .bind ?_ fun _ => .writeRegister
      unfold registerResult
      cases hop : w.opcode <;> cases phase
      case mov.first => exact .bind .operand fun _ => .bind .operand fun _ => .pure
      case loadV.first => exact .bind .operand fun _ => .bind .readCell fun _ => .pure
      case loadR.first => exact .bind .operand fun _ => .bind .readCell fun _ => .pure
      all_goals first | exact .throw | cases hop ▸ h
  | write =>
    change KeepsFlag (write w)
    unfold write
    split
    · exact .bind .readOperand fun _ => .emit
    · cases hop : w.opcode
      case storeV => exact .bind .readOperand fun _ => .writeCell
      case storeR => exact .bind .readOperand fun _ => .writeCell
      all_goals first | exact .throw | cases hop ▸ h
  | compare =>
    change KeepsFlag (DataPath.compare w)
    unfold DataPath.compare
    cases hop : w.opcode
    case cmp => cases hop ▸ h
    all_goals exact .throw
  | tick => exact .pure

abbrev LeavesResults (w : Word) (d : DataPath) (steps : List MicroStep) : Prop :=
  Leaves ((w.results d).foldl Alu.flagAfter d.isZero) (steps.forM (signalOf w)) d

theorem quiet_leaves (h : w.opcode.usesAlu = false) : LeavesResults w d steps := by
  have hresults : w.results d = [] := by
    unfold Word.results
    cases hop : w.opcode <;> first | rfl | cases hop ▸ h
  rw [LeavesResults, hresults]
  exact KeepsFlag.forM (fun _ _ => signalOf_keepsFlag h) d

theorem cmp_leaves (h : w.opcode = .cmp) : LeavesResults w d [.compare] := by
  simp only [LeavesResults, signalOf, DataPath.compare, h, List.forM_eq_forM, List.forM_cons,
    List.forM_nil, bind_assoc, pure_bind, ↓reduceIte]
  refine .operand (fun r hr => .readRegister (fun x hx => .operand (fun v hv =>
    .alu Alu.toOption_cmp (fun n hn => .pure ?_) fun hn => ?_) fun hv => ?_) fun hx => ?_)
    fun hr => ?_
  · simp [Word.results, Word.held?, h, hr, hx, hv, Option.some.inj hn, latchFlag]
  · cases hn
  · simp [Word.results, Word.held?, h, hr, hx, hv]
  · simp [Word.results, Word.held?, h, hr, hx]
  · simp [Word.results, Word.held?, h, hr]

theorem inc_leaves (h : w.opcode = .inc) : LeavesResults w d [.latchRegister .first] := by
  simp only [LeavesResults, signalOf, latchRegister_of_ne, registerResult,
    registerResult.increment, h, List.forM_eq_forM, List.forM_cons, List.forM_nil, bind_assoc,
    reduceCtorEq, ne_eq, not_false_eq_true, bind_pure_unit]
  refine .operand (fun r hr => .readRegister (fun x hx => .alu Alu.toOption_succ
    (fun n hn => KeepsFlag.writeRegister.leaves ?_) fun hn => ?_) fun hx => ?_) fun hr => ?_
  · simp [Word.results, Word.held?, h, hr, hx, hn, latchFlag]
  · simp [Word.results, Word.held?, h, hr, hx, hn]
  · simp [Word.results, Word.held?, h, hr, hx]
  · simp [Word.results, Word.held?, h, hr]

theorem next_leaves (h : w.opcode = .next) : LeavesResults w d
    [.latchRegister .first, .tick, .latchAddress .first, .tick, .latchRegister .second] := by
  simp only [LeavesResults, signalOf, latchRegister_of_ne, latchAddress, registerResult,
    registerResult.increment, h, List.forM_eq_forM, List.forM_cons, List.forM_nil, bind_assoc,
    pure_bind, reduceCtorEq, ne_eq, not_false_eq_true, bind_pure_unit]
  -- Once the pointer is incremented, nothing that follows looks at the flag or sets it.
  refine .operand (fun p hp => .readRegister (fun x hx => .alu Alu.toOption_succ
    (fun n hn => KeepsFlag.leaves (.bind .writeRegister fun _ => .bind .operand fun _ =>
      .bind .readRegister fun _ => .bind (.modify fun _ => rfl) fun _ => .bind .operand fun _ =>
      .bind .readCell fun _ => .writeRegister) ?_) fun hn => ?_) fun hx => ?_) fun hp => ?_
  · simp [Word.results, Word.held?, h, hp, hx, hn, latchFlag]
  · simp [Word.results, Word.held?, h, hp, hx, hn]
  · simp [Word.results, Word.held?, h, hp, hx]
  · simp [Word.results, Word.held?, h, hp]

theorem addMmr_leaves (h : w.opcode = .addMmr) : LeavesResults w d
    [.latchAddress .first, .tick, .latchBuffer .first, .tick, .latchAddress .second, .tick,
      .write] := by
  simp only [LeavesResults, signalOf, latchAddress, latchBuffer, write, Word.writesOutput,
    Word.target?, h, List.forM_eq_forM, List.forM_cons, List.forM_nil, bind_assoc, pure_bind,
    reduceCtorEq, ↓reduceIte, Option.none_beq_some, Bool.false_eq_true, bind_pure_unit]
  refine .operand (fun b hb => .modify <| .readCell (fun x (hx : d.cell? b = some x) => .modify <|
    .operand (fun a ha => .modify <| .operand (fun s hs => .readRegister
      (fun y (hy : d.register? s = some y) => .get <| .alu Alu.toOption_add
        (fun n hn => KeepsFlag.writeCell.leaves ?_) fun hn => ?_)
      fun (hy : d.register? s = none) => ?_) fun hs => ?_) fun ha => ?_)
    fun (hx : d.cell? b = none) => ?_) fun hb => ?_
  · simp [Word.results, Word.held?, h, hb, hx, ha, hs, hy, hn, latchFlag]
  · simp [Word.results, Word.held?, h, hb, hx, ha, hs, hy, hn]
  · simp [Word.results, Word.held?, h, hb, hx, ha, hs, hy]
  · simp [Word.results, Word.held?, h, hb, hx, ha, hs]
  · simp [Word.results, h, hb, hx, ha]
  · simp [Word.results, h, hb, hx]
  · simp [Word.results, h, hb]

theorem modRrv_leaves (h : w.opcode = .modRrv) :
    LeavesResults w d [.latchBuffer .first, .tick, .latchRegister .first] := by
  simp only [LeavesResults, signalOf, latchRegister_of_ne, latchBuffer, registerResult, h,
    List.forM_eq_forM, List.forM_cons, List.forM_nil, bind_assoc, pure_bind, reduceCtorEq, ne_eq,
    not_false_eq_true, bind_pure_unit]
  refine .operand (fun s hs => .modify <| .operand (fun s' hs' => .readRegister
    (fun x (hx : d.register? s' = some x) => .operand (fun r hr => .operand (fun v hv =>
      .alu Alu.toOption_mod (fun n hn => KeepsFlag.writeRegister.leaves ?_) fun hn => ?_)
      fun hv => ?_) fun hr => ?_) fun (hx : d.register? s' = none) => ?_) fun hs' => ?_)
    fun hs => ?_
  · simp [Word.results, Word.held?, h, hs', hx, hr, hv, hn, latchFlag]
  · simp [Word.results, Word.held?, h, hs', hx, hr, hv, hn]
  · simp [Word.results, Word.held?, h, hs', hx, hr, hv]
  · simp [Word.results, Word.held?, h, hs', hx, hr]
  · simp [Word.results, Word.held?, h, hs', hx]
  · simp [Word.results, Word.held?, h, hs']
  · simp [Word.results, Word.held?, h, hs]

theorem linear_leaves (h : w.opcode = .linear) :
    LeavesResults w d [.latchBuffer .first, .tick, .latchRegister .first] := by
  simp only [LeavesResults, signalOf, latchRegister_of_ne, latchBuffer, registerResult, h,
    List.forM_eq_forM, List.forM_cons, List.forM_nil, bind_assoc, pure_bind, reduceCtorEq, ne_eq,
    not_false_eq_true, bind_pure_unit]
  refine .operand (fun v hv => .modify <| .operand (fun s hs => .readRegister
    (fun x (hx : d.register? s = some x) => .operand (fun r hr => .get <| .alu Alu.toOption_mul
      (fun n hn => KeepsFlag.writeRegister.leaves ?_) fun hn => ?_) fun hr => ?_)
    fun (hx : d.register? s = none) => ?_) fun hs => ?_) fun hv => ?_
  · simp [Word.results, Word.held?, h, hv, hs, hx, hr, hn, latchFlag]
  · simp [Word.results, Word.held?, h, hv, hs, hx, hr, hn]
  · simp [Word.results, Word.held?, h, hv, hs, hx, hr]
  · simp [Word.results, Word.held?, h, hv, hs, hx]
  · simp [Word.results, Word.held?, h, hv, hs]
  · simp [Word.results, h, hv]

theorem linearCont_leaves (h : w.opcode = .linearCont) : LeavesResults w d
    [.latchBuffer .first, .tick, .latchBuffer .second, .tick, .latchRegister .first] := by
  simp only [LeavesResults, signalOf, latchRegister_of_ne, latchBuffer, registerResult, h,
    List.forM_eq_forM, List.forM_cons, List.forM_nil, bind_assoc, pure_bind, reduceCtorEq, ne_eq,
    not_false_eq_true, bind_pure_unit]
  refine .operand (fun v hv => .modify <| .operand (fun s hs => .readRegister
    (fun x (hx : d.register? s = some x) => .get <| .alu Alu.toOption_mul (fun k hk => .modify <|
      .operand (fun r hr => .readRegister (fun y (hy : d.register? r = some y) => .get <|
        .alu Alu.toOption_add (fun n hn => KeepsFlag.writeRegister.leaves ?_) fun hn => ?_)
        fun (hy : d.register? r = none) => ?_) fun hr => ?_) fun hk => ?_)
    fun (hx : d.register? s = none) => ?_) fun hs => ?_) fun hv => ?_
  · simp [Word.results, Word.held?, h, hv, hs, hx, hk, hr, hy, hn, latchFlag]
  · simp [Word.results, Word.held?, h, hv, hs, hx, hk, hr, hy, hn, latchFlag]
  · simp [Word.results, Word.held?, h, hv, hs, hx, hk, hr, hy, latchFlag]
  · simp [Word.results, Word.held?, h, hv, hs, hx, hk, hr, latchFlag]
  · simp [Word.results, Word.held?, h, hv, hs, hx, hk]
  · simp [Word.results, Word.held?, h, hv, hs, hx]
  · simp [Word.results, Word.held?, h, hv, hs]
  · simp [Word.results, h, hv]

theorem signals_leave (hs : w.opcode.microProgram? = some steps) : LeavesResults w d steps := by
  cases hop : w.opcode <;> rw [hop] at hs
  case jzR => cases hs
  case cmp => exact Option.some.inj hs ▸ cmp_leaves hop
  case inc => exact Option.some.inj hs ▸ inc_leaves hop
  case next => exact Option.some.inj hs ▸ next_leaves hop
  case addMmr => exact Option.some.inj hs ▸ addMmr_leaves hop
  case modRrv => exact Option.some.inj hs ▸ modRrv_leaves hop
  case linear => exact Option.some.inj hs ▸ linear_leaves hop
  case linearCont => exact Option.some.inj hs ▸ linearCont_leaves hop
  all_goals exact quiet_leaves (hop ▸ rfl)

variable {m : Machine}

def results (m : Machine) : List Int64 :=
  match m.current? with
  | some w => w.results m.path
  | none => []

abbrev LeavesFlag (w : Word) (m : Machine) : Prop :=
  let flag := (w.results m.path).foldl Alu.flagAfter m.path.isZero
  Ends (execute w) m (fun _ m' => m'.path.isZero = flag) fun _ m' => m'.path.isZero = flag

theorem jzR_leavesFlag (h : w.opcode = .jzR) : LeavesFlag w m := by
  unfold LeavesFlag execute
  simp only [h, ends_bind, ends_jumpTarget, ends_signal, ends_operand, ends_readRegister, ends_alu,
    ends_passTick, ends_get, ends_branch, ends_pure]
  refine ⟨fun t ht h0 => ⟨fun r hr => ⟨fun x hx => ⟨fun n hn => ?_, fun c hc => ?_⟩,
    fun hnone => ?_⟩, fun hr => ?_⟩, fun t ht hneg => ?_, fun ht => ?_⟩
  · obtain rfl := Except.ok.inj hn
    simp [Word.results, Word.held?, h, ht, hr, hx, Int.not_lt.2 h0, latchFlag]
  · cases hc
  · have hx : m.path.register? r = none := fetch?_eq_none_iff.2 hnone
    simp [Word.results, Word.held?, h, ht, hr, hx]
  · simp [Word.results, Word.held?, h, ht, hr]
  · cases hx : w.held? m.path 1 <;> simp [Word.results, h, ht, hx, hneg]
  · simp [Word.results, h, ht]

theorem control_leavesFlag (h : w.opcode.microProgram? = none) : LeavesFlag w m := by
  cases hop : w.opcode <;> rw [hop] at h <;> cases h
  case jzR => exact jzR_leavesFlag hop
  all_goals simp [LeavesFlag, execute, Word.results, hop, Opcode.microProgram?]

theorem execute_leavesFlag : LeavesFlag w m := by
  cases hp : w.opcode.microProgram? with
  | none => exact control_leavesFlag hp
  | some steps =>
    have hsignals := signals_leave (d := m.path) hp
    rw [LeavesFlag, execute_of_microProgram hp]
    refine ends_bind.2 ⟨fun _ m₁ h => ?_, fun _ m₁ h => ?_⟩
    · obtain ⟨d, hd, rfl⟩ := microSteps_eq_ok_iff.1 h
      simp only [ends_bind, ends_advance, ends_passTick, ends_pure]
      exact hsignals.1 _ _ hd
    · obtain ⟨before, s, after, d₁, cause, d, hsteps, hb, hs, -, rfl⟩ :=
        microSteps_eq_error_iff.1 h
      exact hsignals.2 _ _ (forM_eq_error_iff.2 ⟨before, s, after, d₁, hsteps, hb, hs⟩)

theorem next_isZero : m.next.path.isZero = m.results.foldl Alu.flagAfter m.path.isZero := by
  cases hw : m.current? with
  | none => rw [next_of_error (step_of_outside hw), results, hw, List.foldl_nil]
  | some w =>
    have hends := @execute_leavesFlag w m
    rw [next, results, hw, step_of_current hw]
    cases hstep : execute w m with
    | ok o m' => exact hends.1 _ _ hstep
    | error fault m' => exact hends.2 _ _ hstep

def history (m : Machine) : Nat → List Int64
  | 0 => []
  | k + 1 => m.history k ++ (m.afterSteps k).results

theorem afterSteps_isZero (k : Nat) :
    (m.afterSteps k).path.isZero = (m.history k).foldl Alu.flagAfter m.path.isZero := by
  induction k with
  | zero => rfl
  | succ k ih => rw [afterSteps, next_isZero, ih, history, List.foldl_append]

theorem afterSteps_isZero_eq (k : Nat) : (m.afterSteps k).path.isZero =
    ((Alu.decisive? (m.history k)).map (· == 0)).getD m.path.isZero := by
  rw [afterSteps_isZero, Alu.foldl_flagAfter]

theorem afterSteps_isZero_iff (h : m.path.isZero = false) (k : Nat) :
    (m.afterSteps k).path.isZero ↔ Alu.decisive? (m.history k) = some 0 := by
  rw [afterSteps_isZero_eq, h]
  cases Alu.decisive? (m.history k) <;> simp

theorem step_of_jz {w : Word} {t : Int64} (hw : m.current? = some w) (hop : w.opcode = .jz)
    (ht : w.arg? 0 = some t) (h0 : 0 ≤ t.toInt) : step m = .ok (.executed .jz)
      { m with
        counter := if m.path.isZero then UInt64.ofNat t.toInt.toNat else m.counter + 1
        tick := m.tick + 1 } := by
  rw [← hop]
  refine step_of_directs hw ?_
  simp only [Word.Directs, hop]
  exact ⟨t, _, ht, toNat_eq_toInt_iff.2 ⟨h0, rfl⟩, rfl⟩

/-- The zero flag is decided by all results of the arithmetic unit so far, those in failed steps
with them: it is set if the last of them that is 0 or 1 is 0, and it is as at the start if there
is none. On a new data path it is clear at the start, and a conditional jump goes by nothing
else. -/
theorem isZero_iff_last_result :
    (∀ (program : Array Word) (path : DataPath) (k : Nat),
      ((start program path).afterSteps k).path.isZero =
        ((Alu.decisive? ((start program path).history k)).map (· == 0)).getD path.isZero) ∧
    ∀ (program cells : Array Word) (registers : Nat) (input : List Char) (path : DataPath)
      (k : Nat), DataPath.start? cells registers input = .ok path →
        (((start program path).afterSteps k).path.isZero ↔
          Alu.decisive? ((start program path).history k) = some 0) ∧
        ∀ (m : Machine) (w : Word) (t : Int64), (start program path).afterSteps k = m →
          m.current? = some w → w.opcode = .jz → w.arg? 0 = some t → 0 ≤ t.toInt →
            step m = .ok (.executed .jz)
              { m with
                counter := if Alu.decisive? ((start program path).history k) = some 0
                  then UInt64.ofNat t.toInt.toNat else m.counter + 1
                tick := m.tick + 1 } := by
  refine ⟨fun program path k => afterSteps_isZero_eq k, fun program cells registers input path k
    hpath => ?_⟩
  have hfresh : path.isZero = false := by
    unfold DataPath.start? at hpath
    split at hpath <;> cases hpath
    rfl
  have hiff := afterSteps_isZero_iff (m := start program path) hfresh k
  refine ⟨hiff, fun m w t hm hw hop ht h0 => ?_⟩
  subst hm
  rw [step_of_jz hw hop ht h0]
  simp only [hiff]

theorem isZero_iff_last_result_kept :
    ((start #[⟨0, .linear, [9, 0, 0]⟩] (.start #[] 1 [])).afterSteps 1).path.isZero ∧
    (start #[⟨0, .linear, [9, 0, 0]⟩] (.start #[] 1 [])).history 2 = [0, 0] ∧
    ∃ m, (start #[⟨0, .cmp, [0, 0]⟩, ⟨1, .mov, [0, 5]⟩, ⟨2, .inc, [0]⟩, ⟨3, .jz, [7]⟩]
        (.start #[] 1 [])).afterSteps 3 = m ∧
      m.counter = 3 ∧ step m = .ok (.executed .jz) { m with counter := 7, tick := 4 } := by
  refine ⟨(isZero_iff_last_result.2 _ _ 1 [] _ 1 rfl).1.2 rfl, rfl, _, rfl, rfl, ?_⟩
  rw [(isZero_iff_last_result.2 _ #[] 1 [] _ 3 rfl).2 _ ⟨3, .jz, [7]⟩ 7 rfl rfl rfl rfl (by decide),
    if_pos]
  · rfl
  · rfl

end Machine
end TickMachine
