import TickMachine.Proofs.DataPath.Faults

/-! Signals that end in a fault. They leave the whole data path as it was, but for one case: a
result that was computed before its destination was found missing has gone through the zero
flag. -/

namespace TickMachine

/-- A signal of `w` computes `result` in `d` and then ends in the fault that the register or the
cell for it does not exist. -/
inductive Word.Loses (w : Word) (d : DataPath) :
    DataPath.Signal → Phase → Int64 → DataPath.Fault → Prop
  | modRrv {register source divisor dividend result : Int64} (hop : w.opcode = .modRrv)
      (hr : w.arg? 0 = some register) (hs : w.arg? 1 = some source)
      (hv : w.arg? 2 = some divisor) (hx : d.register? source = some dividend)
      (h : Alu.compute .mod dividend divisor = .ok result)
      (hplace : DataPath.place? register d.registers.size = none) :
      w.Loses d .latchRegister .first result (.registerOutOfRange register d.registers.size)
  | linear {register source factor result : Int64} (hop : w.opcode = .linear)
      (hr : w.arg? 0 = some register) (hs : w.arg? 2 = some source)
      (hx : d.register? source = some factor) (h : Alu.compute .mul d.buffer factor = .ok result)
      (hplace : DataPath.place? register d.registers.size = none) :
      w.Loses d .latchRegister .first result (.registerOutOfRange register d.registers.size)
  | addMmr {phase : Phase} {source addend result : Int64} (hop : w.opcode = .addMmr)
      (hs : w.arg? 2 = some source) (hx : d.register? source = some addend)
      (h : Alu.compute .add d.buffer addend = .ok result)
      (hplace : DataPath.place? d.address d.cells.size = none) :
      w.Loses d .write phase result (.addressOutOfRange d.address d.cells.size)

namespace DataPath

def Spares (w : Word) (signal : Signal) (phase : Phase) (d : DataPath) (fault : Fault)
    (d' : DataPath) : Prop :=
  d' = d ∨ ∃ result, w.Loses d signal phase result fault ∧ d' = d.latchFlag result

variable {w : Word} {signal : Signal} {phase : Phase} {d d' : DataPath} {result : Int64}
  {fault : Fault}

theorem Spares.keeps (h : Spares w signal phase d fault d') :
    { d' with isZero := d.isZero } = d := by
  rcases h with rfl | ⟨result, -, rfl⟩
  · rfl
  · rfl

theorem eq_zero_or_one_of_flagAfter_ne {flag : Bool} (h : Alu.flagAfter flag result ≠ flag) :
    result = 0 ∨ result = 1 := by
  by_cases h0 : result = 0
  · exact .inl h0
  · by_cases h1 : result = 1
    · exact .inr h1
    · exact absurd (by rw [Alu.flagAfter, if_neg h0, if_neg h1]) h

theorem Spares.loses (h : Spares w signal phase d fault d') (hflag : d'.isZero ≠ d.isZero) :
    ∃ result, (result = 0 ∨ result = 1) ∧ w.Loses d signal phase result fault := by
  rcases h with rfl | ⟨result, hlost, rfl⟩
  · exact absurd rfl hflag
  · exact ⟨result, eq_zero_or_one_of_flagAfter_ne hflag, hlost⟩

theorem register?_eq_none_iff {register : Int64} :
    d.register? register = none ↔ place? register d.registers.size = none := fetch?_eq_none_iff

theorem registerResult_spares : Ends (registerResult w phase) d
    (fun x d' => d.register? x.1 = none → Spares w .latchRegister phase d
      (.registerOutOfRange x.1 d.registers.size) d') fun _ _ => True := by
  unfold registerResult registerResult.increment Spares
  have hread {r v : Int64} {P : Prop} (hv : d.register? r = some v) (hnone : d.register? r = none) :
      P := by
    rw [hv] at hnone
    cases hnone
  cases hop : w.opcode <;> cases phase <;> simp
  case next.first => exact fun _ _ _ hv _ _ hnone => hread hv hnone
  case inc.first => exact fun _ _ _ hv _ _ hnone => hread hv hnone
  case linearCont.first => exact fun _ _ _ hv _ _ hnone => hread hv hnone
  case modRrv.first =>
    intro s hs x hx r hr v hv n h0 hn hnone
    have h := Alu.compute_mod_eq_ok_iff.2 ⟨h0, hn⟩
    exact .inr ⟨n, .modRrv hop hr hs hv hx h (register?_eq_none_iff.1 hnone), rfl⟩
  case linear.first =>
    intro s hs x hx r hr n hn hnone
    have h := Alu.compute_mul_eq_ok_iff.2 hn
    exact .inr ⟨n, .linear hop hr hs hx h (register?_eq_none_iff.1 hnone), rfl⟩

theorem latchRegister_spares : Ends (latchRegister w phase) d (fun _ _ => True)
    (Spares w .latchRegister phase d) := by
  unfold latchRegister
  split
  · simp [Spares]
  · refine ends_bind.2 ⟨fun x d₁ h => ?_, fun _ _ h => .inl (registerResult_frame.2 _ _ h)⟩
    obtain ⟨register, value⟩ := x
    change Ends (writeRegister register value) d₁ _ _
    have hspares := registerResult_spares.1 _ d₁ h
    have hsame := (registerResult_frame.1 _ d₁ h).registers
    rw [ends_writeRegister, hsame]
    exact ⟨fun _ _ => trivial, fun hnone => hspares (register?_eq_none_iff.2 hnone)⟩

theorem write_spares : Ends (write w) d (fun _ _ => True) (Spares w .write phase d) := by
  unfold write Spares
  split
  · simp
  · cases hop : w.opcode <;> simp
    case addMmr =>
      intro s hs x hx n hn hnone
      have h := Alu.compute_add_eq_ok_iff.2 hn
      exact .inr ⟨n, .addMmr hop hs hx h hnone, rfl⟩

theorem latchRegister_of_loses (h : w.Loses d .latchRegister phase result fault) :
    latchRegister w phase d = .error fault (d.latchFlag result) := by
  cases h with
  | modRrv hop hr hs hv hx h hplace =>
    simp [latchRegister, registerResult, Word.readsInput, Word.source?, hop, hr, hs, hv, hx, h,
      and_assoc, -Alu.compute_mod_eq_ok_iff]
    exact .inr ⟨hplace, rfl⟩
  | linear hop hr hs hx h hplace =>
    simp [latchRegister, registerResult, Word.readsInput, Word.source?, hop, hr, hs, hx, h,
      and_assoc, -Alu.compute_mul_eq_ok_iff]
    exact .inr ⟨hplace, rfl⟩

theorem write_of_loses (h : w.Loses d .write phase result fault) :
    write w d = .error fault (d.latchFlag result) := by
  cases h with
  | addMmr hop hs hx h hplace =>
    simp [write, Word.writesOutput, Word.target?, hop, hs, hx, h, and_assoc,
      -Alu.compute_add_eq_ok_iff]
    exact ⟨hplace, rfl, rfl⟩

/-- A signal that fails leaves the data path as it was, up to the zero flag. The flag is another one
only where the result that it follows is 0 or 1 and has no register or cell to go to, which happens
to remainders, to plain products and to sums for memory. -/
theorem signals_atomic (w : Word) (phase : Phase) (d : DataPath) :
    (∀ fault d', latchAddress w phase d = .error fault d' → d' = d) ∧
    (∀ fault d', latchBuffer w phase d = .error fault d' → d' = d) ∧
    (∀ fault d', DataPath.compare w d = .error fault d' → d' = d) ∧
    (∀ fault d', latchRegister w phase d = .error fault d' →
      { d' with isZero := d.isZero } = d ∧ (d'.isZero ≠ d.isZero →
        ∃ result, (result = 0 ∨ result = 1) ∧ w.Loses d .latchRegister phase result fault)) ∧
    (∀ fault d', write w d = .error fault d' →
      { d' with isZero := d.isZero } = d ∧ (d'.isZero ≠ d.isZero →
        ∃ result, (result = 0 ∨ result = 1) ∧ w.Loses d .write phase result fault)) ∧
    (∀ result fault, w.Loses d .latchRegister phase result fault →
      latchRegister w phase d = .error fault (d.latchFlag result)) ∧
    ∀ result fault, w.Loses d .write phase result fault →
      write w d = .error fault (d.latchFlag result) := by
  refine ⟨latchAddress_frame.2, latchBuffer_frame.2, compare_frame.2, fun fault d' h => ?_,
    fun fault d' h => ?_, fun _ _ => latchRegister_of_loses, fun _ _ => write_of_loses⟩
  · have hspares := latchRegister_spares.2 fault d' h
    exact ⟨hspares.keeps, hspares.loses⟩
  · have hspares : Spares w .write phase d fault d' := write_spares.2 fault d' h
    exact ⟨hspares.keeps, hspares.loses⟩

theorem signals_atomic_linear :
    latchRegister ⟨0, .linear, [5, 3, 0]⟩ .first (.start #[] 1 []) =
      .error (.registerOutOfRange 5 1) { DataPath.start #[] 1 [] with isZero := true } :=
  (signals_atomic ⟨0, .linear, [5, 3, 0]⟩ .first (.start #[] 1 [])).2.2.2.2.2.1 0 _
    (.linear rfl rfl rfl rfl rfl rfl)

end DataPath
end TickMachine
