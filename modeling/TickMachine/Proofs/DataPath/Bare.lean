import TickMachine.Proofs.DataPath.Faults

/-! The data path without what no signal looks at: the index and the tag of a cell and its arguments
but for the value, and the index of an instruction and its arguments behind the signature. Every
signal does the same on the rest. -/

namespace TickMachine

section
variable {ε ε' σ σ' α β : Type}

def seenBy (f : σ → σ') (g : ε → ε') : EStateM.Result ε σ α → EStateM.Result ε' σ' α
  | .ok x s => .ok x (f s)
  | .error e s => .error (g e) (f s)

def Mirrors (f : σ → σ') (g : ε → ε') (a : EStateM ε σ α) (a' : EStateM ε' σ' α) : Prop :=
  ∀ s, a' (f s) = seenBy f g (a s)

variable {f : σ → σ'} {g : ε → ε'} {a : EStateM ε σ α} {a' : EStateM ε' σ' α}
  {k : α → EStateM ε σ β} {k' : α → EStateM ε' σ' β}

namespace Mirrors

theorem pure {x : α} : Mirrors f g (pure x) (pure x) := fun _ => rfl

theorem throw {e : ε} {e' : ε'} (h : g e = e') :
    Mirrors f g (throw e : EStateM ε σ α) (throw e') := fun _ => h ▸ rfl

theorem modify {u : σ → σ} {u' : σ' → σ'} (h : ∀ s, u' (f s) = f (u s)) :
    Mirrors f g (modify u) (modify u') := by
  intro s
  rw [modify_apply, modify_apply, h]
  rfl

theorem bind (h : Mirrors f g a a') (hk : ∀ x, Mirrors f g (k x) (k' x)) :
    Mirrors f g (a >>= k) (a' >>= k') := by
  intro s
  rw [bind_apply, bind_apply, h s]
  cases a s with
  | ok x s₁ => exact hk x s₁
  | error e s₁ => rfl

theorem get_bind {k : σ → EStateM ε σ β} {k' : σ' → EStateM ε' σ' β}
    (hk : ∀ s, Mirrors f g (k s) (k' (f s))) : Mirrors f g (get >>= k) (get >>= k') :=
  fun s => hk s s

theorem ite {c : Prop} [Decidable c] {b : EStateM ε σ α} {b' : EStateM ε' σ' α}
    (ha : Mirrors f g a a') (hb : Mirrors f g b b') :
    Mirrors f g (if c then a else b) (if c then a' else b') := by
  split
  · exact ha
  · exact hb

theorem forM {xs : List α} {k : α → EStateM ε σ PUnit} {k' : α → EStateM ε' σ' PUnit}
    (hk : ∀ x, Mirrors f g (k x) (k' x)) : Mirrors f g (xs.forM k) (xs.forM k') := by
  induction xs with
  | nil => exact .pure
  | cons x xs ih => exact .bind (hk x) fun _ => ih

end Mirrors
end

namespace Word

/-- An instruction without its index and without arguments that its signature does not name. -/
def bare (w : Word) : Word := ⟨0, w.opcode, w.args.take w.opcode.signature.length⟩

def bareCell (w : Word) : Word := ⟨0, .number, [w.value]⟩

variable {w w' : Word} {position : Nat}

theorem arg?_bare (h : position < w.opcode.signature.length) :
    w.bare.arg? position = w.arg? position :=
  List.getElem?_take_of_lt h

theorem bareCell_setValue {v : Int64} : (w.setValue v).bareCell = w.bareCell.setValue v := rfl

theorem readsInput_bare : w.bare.readsInput = w.readsInput := by
  rw [Bool.eq_iff_iff, readsInput_iff, readsInput_iff]
  refine and_congr_right fun hop => ?_
  have hop : w.opcode = .loadV := hop
  rw [arg?_bare (by rw [hop]; decide)]

theorem writesOutput_bare : w.bare.writesOutput = w.writesOutput := by
  rw [Bool.eq_iff_iff, writesOutput_iff, writesOutput_iff]
  refine and_congr_right fun hop => ?_
  have hop : w.opcode = .storeV := hop
  rw [arg?_bare (by rw [hop]; decide)]

end Word

namespace DataPath

def Fault.bare : Fault → Fault
  | .missingOperand _ opcode position => .missingOperand 0 opcode position
  | fault => fault

def bare (d : DataPath) : DataPath := { d with cells := d.cells.map Word.bareCell }

abbrev Bares {α : Type} (a a' : Action α) : Prop := Mirrors bare Fault.bare a a'

variable {w : Word} {phase : Phase} {position : Nat} {register value left right n : Int64}
  {op : Operation} {d : DataPath}

theorem fetch?_map {α β : Type} {store : Array α} {f : α → β} :
    fetch? (store.map f) n = (fetch? store n).map f := by
  rw [fetch?, fetch?, Array.size_map, Option.map_bind]
  cases place? n store.size with
  | none => rfl
  | some i => exact Array.getElem?_map

theorem map_modify {α β : Type} {store : Array α} {f : α → β} {u : α → α} {v : β → β} {i : Nat}
    (h : ∀ x, f (u x) = v (f x)) : (store.modify i u).map f = (store.map f).modify i v := by
  apply Array.ext
  · simp only [Array.size_map, Array.size_modify]
  · intro j _ _
    simp only [Array.getElem_map, Array.getElem_modify]
    split
    · exact h _
    · rfl

theorem registers_bare : d.bare.registers = d.registers := rfl

theorem address_bare : d.bare.address = d.address := rfl

theorem input_bare : d.bare.input = d.input := rfl

theorem cells_bare : d.bare.cells = d.cells.map Word.bareCell := rfl

theorem operand_bares (h : position < w.opcode.signature.length) :
    Bares (operand w position) (operand w.bare position) := by
  rw [operand, operand, Word.arg?_bare h]
  cases w.arg? position with
  | none => exact .throw rfl
  | some v => exact .pure

theorem readRegister_bares : Bares (readRegister register) (readRegister register) := by
  refine .get_bind fun d => ?_
  simp only [registers_bare]
  cases fetch? d.registers register with
  | none => exact .throw rfl
  | some v => exact .pure

theorem writeRegister_bares :
    Bares (writeRegister register value) (writeRegister register value) := by
  refine .get_bind fun d => ?_
  simp only [registers_bare]
  cases place? register d.registers.size with
  | none => exact .throw rfl
  | some i => exact .modify fun _ => rfl

theorem readCell_bares : Bares readCell readCell := by
  refine .get_bind fun d => ?_
  simp only [cells_bare, address_bare, fetch?_map, Array.size_map]
  cases fetch? d.cells d.address with
  | none => exact .throw rfl
  | some cell => exact .pure

theorem writeCell_bares : Bares (writeCell value) (writeCell value) := by
  refine .get_bind fun d => .get_bind fun d' => ?_
  simp only [cells_bare, address_bare, Array.size_map]
  cases place? d.address d'.cells.size with
  | none => exact .throw rfl
  | some i =>
    refine .modify fun d => ?_
    rw [bare, bare, map_modify (v := (·.setValue value)) fun _ => Word.bareCell_setValue]

theorem alu_bares : Bares (alu op left right) (alu op left right) := by
  rw [alu]
  cases Alu.compute op left right with
  | ok result => exact .bind (.modify fun _ => rfl) fun _ => .pure
  | error cause => exact .throw rfl

theorem takeInput_bares : Bares (takeInput register) (takeInput register) := by
  refine .get_bind fun d => ?_
  simp only [registers_bare]
  cases place? register d.registers.size with
  | none => exact .throw rfl
  | some i =>
    refine .get_bind fun d => ?_
    simp only [input_bare]
    cases d.input with
    | nil => exact .throw rfl
    | cons c rest => exact .modify fun _ => rfl

theorem emit_bares : Bares (emit value) (emit value) := .modify fun _ => rfl

/-! ### Signals -/

theorem opcode_bare : w.bare.opcode = w.opcode := rfl

theorem readOperand_bares (h : position < w.opcode.signature.length) :
    Bares (operand w position >>= readRegister) (operand w.bare position >>= readRegister) :=
  .bind (operand_bares h) fun _ => readRegister_bares

theorem latchAddress_bares : Bares (latchAddress w phase) (latchAddress w.bare phase) := by
  unfold latchAddress
  rw [opcode_bare]
  cases hop : w.opcode <;> cases phase <;> refine .bind ?_ fun address => .modify fun _ => rfl
  case loadV.first => exact operand_bares (by rw [hop]; decide)
  case loadR.first => exact readOperand_bares (by rw [hop]; decide)
  case storeV.first => exact operand_bares (by rw [hop]; decide)
  case storeR.first => exact readOperand_bares (by rw [hop]; decide)
  case next.first => exact readOperand_bares (by rw [hop]; decide)
  case addMmr.first => exact operand_bares (by rw [hop]; decide)
  case addMmr.second => exact operand_bares (by rw [hop]; decide)
  all_goals exact .throw rfl

theorem latchBuffer_bares : Bares (latchBuffer w phase) (latchBuffer w.bare phase) := by
  have hlatch (buffer : Int64) : Bares (modify fun d => { d with buffer })
      (modify fun d => { d with buffer }) := .modify fun _ => rfl
  unfold latchBuffer
  rw [opcode_bare]
  cases hop : w.opcode <;> cases phase
  case addMmr.first => exact .bind readCell_bares hlatch
  case modRrv.first => exact .bind (operand_bares (by rw [hop]; decide)) hlatch
  case linear.first => exact .bind (operand_bares (by rw [hop]; decide)) hlatch
  case linearCont.first => exact .bind (operand_bares (by rw [hop]; decide)) hlatch
  case linearCont.second =>
    exact .bind (readOperand_bares (by rw [hop]; decide)) fun _ =>
      .get_bind fun _ => .bind alu_bares hlatch
  all_goals exact .bind (.throw rfl) hlatch

theorem increment_bares (h : position < w.opcode.signature.length) :
    Bares (registerResult.increment w position) (registerResult.increment w.bare position) :=
  .bind (operand_bares h) fun _ => .bind readRegister_bares fun _ => .bind alu_bares fun _ => .pure

theorem registerResult_bares : Bares (registerResult w phase) (registerResult w.bare phase) := by
  unfold registerResult
  rw [opcode_bare]
  cases hop : w.opcode <;> cases phase
  case mov.first =>
    exact .bind (operand_bares (by rw [hop]; decide)) fun _ =>
      .bind (operand_bares (by rw [hop]; decide)) fun _ => .pure
  case loadV.first =>
    exact .bind (operand_bares (by rw [hop]; decide)) fun _ => .bind readCell_bares fun _ => .pure
  case loadR.first =>
    exact .bind (operand_bares (by rw [hop]; decide)) fun _ => .bind readCell_bares fun _ => .pure
  case next.second =>
    exact .bind (operand_bares (by rw [hop]; decide)) fun _ => .bind readCell_bares fun _ => .pure
  case next.first => exact increment_bares (by rw [hop]; decide)
  case inc.first => exact increment_bares (by rw [hop]; decide)
  case modRrv.first =>
    exact .bind (readOperand_bares (by rw [hop]; decide)) fun _ =>
      .bind (operand_bares (by rw [hop]; decide)) fun _ =>
      .bind (operand_bares (by rw [hop]; decide)) fun _ => .bind alu_bares fun _ => .pure
  case linear.first =>
    exact .bind (readOperand_bares (by rw [hop]; decide)) fun _ =>
      .bind (operand_bares (by rw [hop]; decide)) fun _ =>
      .get_bind fun _ => .bind alu_bares fun _ => .pure
  case linearCont.first =>
    exact .bind (operand_bares (by rw [hop]; decide)) fun _ =>
      .bind readRegister_bares fun _ => .get_bind fun _ => .bind alu_bares fun _ => .pure
  all_goals exact .throw rfl

theorem latchRegister_bares : Bares (latchRegister w phase) (latchRegister w.bare phase) := by
  unfold latchRegister
  rw [Word.readsInput_bare]
  split
  · next hreads =>
    have hop := (Word.readsInput_iff.1 hreads).1
    exact .bind (operand_bares (by rw [hop]; decide)) fun _ => takeInput_bares
  · exact .bind registerResult_bares fun _ => writeRegister_bares

theorem write_bares : Bares (write w) (write w.bare) := by
  unfold write
  rw [Word.writesOutput_bare, opcode_bare]
  split
  · next hwrites =>
    have hop := (Word.writesOutput_iff.1 hwrites).1
    exact .bind (readOperand_bares (by rw [hop]; decide)) fun _ => emit_bares
  · cases hop : w.opcode
    case storeV => exact .bind (readOperand_bares (by rw [hop]; decide)) fun _ => writeCell_bares
    case storeR => exact .bind (readOperand_bares (by rw [hop]; decide)) fun _ => writeCell_bares
    case addMmr =>
      exact .bind (readOperand_bares (by rw [hop]; decide)) fun _ =>
        .get_bind fun _ => .bind alu_bares fun _ => writeCell_bares
    all_goals exact .throw rfl

theorem compare_bares : Bares (DataPath.compare w) (DataPath.compare w.bare) := by
  unfold DataPath.compare
  rw [opcode_bare]
  split
  · next hop =>
    exact .bind (readOperand_bares (by rw [hop]; decide)) fun _ =>
      .bind (operand_bares (by rw [hop]; decide)) fun _ => .bind alu_bares fun _ => .pure
  · exact .throw rfl

end DataPath
end TickMachine
