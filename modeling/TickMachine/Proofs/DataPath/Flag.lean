import Mathlib.Data.List.Induction
import TickMachine.Proofs.DataPath.Faults

/-! The zero flag along the parts of a signal. Only the arithmetic unit sets it, from a result that
is 0 or 1, and so of many results the last one of these decides. -/

namespace TickMachine

open Numeric

namespace Alu

variable {op : Operation} {left right : Int64} {n : Int}

theorem toOption_represent : (represent op left right n).toOption = signed64? n := by
  unfold represent
  cases signed64? n with
  | none => rfl
  | some v => rfl

theorem toOption_add :
    (compute .add left right).toOption = signed64? (left.toInt + right.toInt) := toOption_represent

theorem toOption_succ : (compute .add left 1).toOption = signed64? (left.toInt + 1) :=
  toOption_represent

theorem toOption_mul :
    (compute .mul left right).toOption = signed64? (left.toInt * right.toInt) := toOption_represent

theorem toOption_cmp :
    (compute .cmp left right).toOption = some (if left = right then 0 else 1) := rfl

theorem toOption_mod : (compute .mod left right).toOption =
    if right = 0 then none else signed64? (left.toInt.fmod right.toInt) := by
  unfold compute
  by_cases h : right = 0
  · rw [if_pos h, if_pos h]
    rfl
  · rw [if_neg h, if_neg h, toOption_represent]

def decisive? (results : List Int64) : Option Int64 :=
  results.reverse.find? fun v => v = 0 ∨ v = 1

theorem decisive?_concat {results : List Int64} {v : Int64} :
    decisive? (results ++ [v]) = if v = 0 ∨ v = 1 then some v else decisive? results := by
  rw [decisive?, List.reverse_concat, List.find?_cons]
  by_cases h : v = 0 ∨ v = 1
  · simp [h]
  · simp [h, decisive?]

theorem foldl_flagAfter {results : List Int64} {flag : Bool} :
    results.foldl flagAfter flag = ((decisive? results).map (· == 0)).getD flag := by
  induction results using List.reverseRecOn with
  | nil => rfl
  | append_singleton results v ih =>
    rw [List.foldl_append, decisive?_concat, ih, List.foldl_cons, List.foldl_nil]
    by_cases h0 : v = 0
    · simp [flagAfter, h0]
    · by_cases h1 : v = 1
      · simp [flagAfter, h1]
      · simp [flagAfter, h0, h1]

end Alu

namespace DataPath

variable {α β : Type} {flag : Bool} {w : Word} {phase : Phase} {d : DataPath} {position : Nat}
  {op : Operation} {register value left right : Int64} {a : Action α} {k : α → Action β}

def Leaves (flag : Bool) (a : Action α) (d : DataPath) : Prop :=
  Ends a d (fun _ d' => d'.isZero = flag) fun _ d' => d'.isZero = flag

def KeepsFlag (a : Action α) : Prop := ∀ d, Leaves d.isZero a d

namespace KeepsFlag

theorem pure {x : α} : KeepsFlag (pure x : Action α) := fun _ => ends_pure.2 rfl

theorem throw {e : Fault} : KeepsFlag (throw e : Action α) := fun _ => ends_throw.2 rfl

theorem bind (h : KeepsFlag a) (hk : ∀ x, KeepsFlag (k x)) : KeepsFlag (a >>= k) := by
  refine fun d => ends_bind.2 ((h d).mono (fun x d₁ h₁ => ?_) fun _ _ h₁ => h₁)
  exact h₁ ▸ hk x d₁

theorem forM {xs : List α} {f : α → Action PUnit} (h : ∀ x ∈ xs, KeepsFlag (f x)) :
    KeepsFlag (xs.forM f) := fun d =>
  Ends.forM (I := fun d' : DataPath => d'.isZero = d.isZero) (fun x hx d₁ h₁ => h₁ ▸ h x hx d₁) rfl

theorem modify {g : DataPath → DataPath} (h : ∀ d, (g d).isZero = d.isZero) :
    KeepsFlag (modify g) := fun d => ends_modify.2 (h d)

theorem operand : KeepsFlag (operand w position) :=
  fun _ => ends_operand.2 ⟨fun _ _ => rfl, fun _ => rfl⟩

theorem readRegister : KeepsFlag (readRegister register) :=
  fun _ => ends_readRegister.2 ⟨fun _ _ => rfl, fun _ => rfl⟩

theorem readOperand :
    KeepsFlag (DataPath.operand w position >>= DataPath.readRegister) :=
  bind operand fun _ => readRegister

theorem readCell : KeepsFlag readCell := fun _ => ends_readCell.2 ⟨fun _ _ => rfl, fun _ => rfl⟩

theorem writeRegister : KeepsFlag (writeRegister register value) := by
  refine fun d => ends_writeRegister.2 ⟨?_, fun _ => rfl⟩
  rintro _ ⟨i, -, rfl⟩
  rfl

theorem writeCell : KeepsFlag (writeCell value) := by
  refine fun d => ends_writeCell.2 ⟨?_, fun _ => rfl⟩
  rintro _ ⟨i, -, rfl⟩
  rfl

theorem takeInput : KeepsFlag (takeInput register) := by
  refine fun d => ends_takeInput.2 ⟨?_, fun _ => rfl, fun _ _ _ => rfl⟩
  rintro c rest _ - ⟨i, -, rfl⟩
  rfl

theorem emit : KeepsFlag (emit value) := modify fun _ => rfl

end KeepsFlag

namespace Leaves

theorem pure {x : α} (h : d.isZero = flag) : Leaves flag (pure x : Action α) d := ends_pure.2 h

theorem modify {k : PUnit → Action α} {g : DataPath → DataPath} (h : Leaves flag (k ⟨⟩) (g d)) :
    Leaves flag (modify g >>= k) d := ends_bind.2 (ends_modify.2 h)

theorem get {k : DataPath → Action α} (h : Leaves flag (k d) d) : Leaves flag (get >>= k) d := h

theorem operand {k : Int64 → Action α} (hsome : ∀ v, w.arg? position = some v → Leaves flag (k v) d)
    (hnone : w.arg? position = none → d.isZero = flag) :
    Leaves flag (operand w position >>= k) d := ends_bind.2 (ends_operand.2 ⟨hsome, hnone⟩)

theorem readRegister {k : Int64 → Action α}
    (hsome : ∀ v, d.register? register = some v → Leaves flag (k v) d)
    (hnone : d.register? register = none → d.isZero = flag) :
    Leaves flag (readRegister register >>= k) d :=
  ends_bind.2 (ends_readRegister.2 ⟨hsome, fun h => hnone (fetch?_eq_none_iff.2 h)⟩)

theorem readCell {k : Int64 → Action α}
    (hsome : ∀ v, d.cell? d.address = some v → Leaves flag (k v) d)
    (hnone : d.cell? d.address = none → d.isZero = flag) : Leaves flag (readCell >>= k) d := by
  refine ends_bind.2 (ends_readCell.2 ⟨hsome, fun h => hnone ?_⟩)
  rw [cell?, fetch?_eq_none_iff.2 h]
  rfl

theorem alu {k : Int64 → Action α} {result? : Option Int64}
    (h : (Alu.compute op left right).toOption = result?)
    (hsome : ∀ n, result? = some n → Leaves flag (k n) (d.latchFlag n))
    (hnone : result? = none → d.isZero = flag) : Leaves flag (alu op left right >>= k) d := by
  subst h
  refine ends_bind.2 (ends_alu.2 ⟨fun n hn => hsome n ?_, fun c hc => hnone ?_⟩)
  · rw [hn]
    rfl
  · rw [hc]
    rfl

end Leaves

theorem KeepsFlag.leaves (h : KeepsFlag a) (hflag : d.isZero = flag) : Leaves flag a d :=
  hflag ▸ h d

theorem latchAddress_keepsFlag : KeepsFlag (latchAddress w phase) := by
  have hlatch (address : Int64) : KeepsFlag (modify fun d => { d with address }) :=
    .modify fun _ => rfl
  unfold latchAddress
  split <;> refine .bind ?_ hlatch
  all_goals first | exact .operand | exact .readOperand | exact .throw

theorem latchRegister_of_ne (h : w.opcode ≠ .loadV) :
    latchRegister w phase = registerResult w phase >>= fun x => writeRegister x.1 x.2 := by
  have hreads : ¬ w.readsInput := fun hreads => h (Word.readsInput_iff.1 hreads).1
  rw [latchRegister, if_neg hreads]

end DataPath
end TickMachine
