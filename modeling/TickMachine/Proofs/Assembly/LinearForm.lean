import TickMachine.Proofs.Assembly.Diagnosis
import TickMachine.Proofs.Assembly.Printed
import TickMachine.Proofs.Machine.Accumulation

/-! Linear forms from their text to their value. A line with one is read as its register and its
terms, comes to one word for each term wherever it stands, and these words sum the terms up. -/

namespace TickMachine.Assembly

open Text

def HasName (register : Int64) : Prop :=
  0 ≤ register.toInt ∧ register.toInt < Int64.maxValue.toInt

instance (register : Int64) : Decidable (HasName register) := inferInstanceAs (Decidable (_ ∧ _))

def registerName (register : Int64) : List Char := 'r' :: (toString (register.toInt + 1)).toList

def formTexts (register : Int64) (terms : List Term) : List (List Char) :=
  registerName register ::
    terms.flatMap fun t => [(toString t.factor.toInt).toList, registerName t.source]

def linearLine (register : Int64) (terms : List Term) : List Char :=
  [' '].intercalate ("linear".toList :: formTexts register terms)

def linearInstructions (register : Int64) (terms : List Term) : List Instruction :=
  terms.mapIdx fun i t => ⟨if i = 0 then .linear else .linearCont,
    [register, t.factor, t.source].map .value⟩

variable {register : Int64} {terms : List Term} {text : List Char} {o : Outline} {index : Nat}
  {is is' : List Instruction} {ws : List Word}

/-! ### The line -/

theorem registerName_isPlainText (register : Int64) : IsPlainText (registerName register) := by
  refine ⟨List.cons_ne_nil _ _, List.forall_mem_cons.2 ⟨by decide, ?_⟩⟩
  exact fun c => isPlain_of_mem_toString

theorem formTexts_isPlainText : ∀ text ∈ formTexts register terms, IsPlainText text := by
  refine List.forall_mem_cons.2 ⟨registerName_isPlainText register, ?_⟩
  intro text ht
  obtain ⟨t, -, ht⟩ := List.mem_flatMap.1 ht
  obtain rfl | ht := List.mem_cons.1 ht
  · exact ⟨toList_toString_ne_nil _, fun c => isPlain_of_mem_toString⟩
  · obtain rfl := List.mem_singleton.1 ht
    exact registerName_isPlainText t.source

theorem linear_isPlainText : IsPlainText "linear".toList := mnemonic_isPlainText .linear

theorem linearTexts_isPlainText :
    ∀ text ∈ "linear".toList :: formTexts register terms, IsPlainText text :=
  List.forall_mem_cons.2 ⟨linear_isPlainText, formTexts_isPlainText⟩

theorem read_registerName (h : HasName register) :
    Operand.read (registerName register) = .value register := by
  rw [registerName, Operand.read, int64?_register, register?_toString h.1 h.2]

theorem map_read_formTexts (hregister : HasName register) (hterms : ∀ t ∈ terms, HasName t.source) :
    (formTexts register terms).map Operand.read = .value register ::
      termOperands (terms.map fun t => (.value t.factor, .value t.source)) := by
  rw [formTexts, List.map_cons, read_registerName hregister]
  refine congrArg _ ?_
  induction terms with
  | nil => rfl
  | cons t terms ih =>
    obtain ⟨ht, hterms⟩ := List.forall_mem_cons.1 hterms
    have hfactor : Operand.read (toString t.factor.toInt).toList = .value t.factor := by
      rw [Operand.read, int64?_toString]
    rw [List.flatMap_cons, List.map_append, ih hterms, List.map_cons, List.map_cons, hfactor,
      read_registerName ht]
    rfl

theorem content_linearLine : content (linearLine register terms) = linearLine register terms := by
  refine content_intercalate (List.cons_ne_nil _ _) ?_ ?_
  · exact fun text ht => (linearTexts_isPlainText text ht).isWord
  intro text ht hc
  have hplain := (linearTexts_isPlainText text ht).2 _ hc
  revert hplain
  decide

theorem newline_not_mem_linearLine : '\n' ∉ linearLine register terms := by
  intro hc
  obtain hc | ⟨text, ht, hc⟩ := mem_intercalate hc
  · revert hc
    decide
  · have hplain := (linearTexts_isPlainText text ht).2 _ hc
    revert hplain
    decide

theorem directive?_linearLine : directive? (linearLine register terms) = none := rfl

theorem read_linearLine (hregister : HasName register) (hterms : ∀ t ∈ terms, HasName t.source) :
    CodeLine.read (linearLine register terms) = .instruction "linear".toList (.value register ::
      termOperands (terms.map fun t => (.value t.factor, .value t.source))) := by
  rw [linearLine, read_intercalate linear_isPlainText formTexts_isPlainText,
    map_read_formTexts hregister hterms]

/-! ### The words -/

theorem CodeLine.Gives.unique {c : CodeLine} (h : c.Gives is) (h' : c.Gives is') : is = is' := by
  cases c with
  | label name =>
    cases h
    cases h'
    rfl
  | instruction mnemonic os =>
    have hok : expand 0 mnemonic os = .ok (is.map (Instruction.draft 0)) :=
      expand_eq_ok_iff.2 ⟨is, h, rfl⟩
    have hok' : expand 0 mnemonic os = .ok (is'.map (Instruction.draft 0)) :=
      expand_eq_ok_iff.2 ⟨is', h', rfl⟩
    have hdrafts := congrArg (List.map Draft.instruction) (Except.ok.inj (hok.symm.trans hok'))
    rw [List.map_map, List.map_map] at hdrafts
    exact (List.map_id is).symm.trans (hdrafts.trans (List.map_id is'))

theorem linear_gives (hne : terms ≠ []) :
    (CodeLine.instruction "linear".toList (.value register ::
      termOperands (terms.map fun t => (.value t.factor, .value t.source)))).Gives
        (linearInstructions register terms) := by
  obtain ⟨t, terms, rfl⟩ := List.exists_cons_of_ne_nil hne
  have hfurther : (terms.mapIdx fun i t => (⟨if i + 1 = 0 then .linear else .linearCont,
      [register, t.factor, t.source].map .value⟩ : Instruction)) =
        (terms.map fun t => ((.value t.factor, .value t.source) : Operand × Operand)).map
          fun t => ⟨.linearCont, [.value register, t.1, t.2]⟩ := by
    apply List.ext_getElem?
    intro i
    simp
    rfl
  rw [linearInstructions, List.mapIdx_cons, hfurther]
  exact .linear rfl

theorem forall₂_denotes_iff {args args' : List Int64} :
    List.Forall₂ o.Denotes (args.map .value) args' ↔ args' = args := by
  have hvalue (v v' : Int64) : o.Denotes (.value v) v' ↔ v = v' := by
    constructor
    · intro h
      cases h
      rfl
    · rintro rfl
      exact .value
  rw [List.forall₂_map_left_iff]
  simp only [hvalue, List.forall₂_eq_eq_eq]
  exact eq_comm

theorem forall₂_linear_iff : List.Forall₂ (fun (p : Instruction × Nat) (w : Word) =>
    w.index = UInt64.ofNat p.2 ∧ w.opcode = p.1.opcode ∧
      List.Forall₂ o.Denotes p.1.operands w.args)
        ((linearInstructions register terms).zipIdx index) ws ↔
          ws = linearWords index register terms := by
  have hword (i : Nat) (op : Opcode) (args : List Int64) (w : Word) :
      (w.index = UInt64.ofNat i ∧ w.opcode = op ∧
        List.Forall₂ o.Denotes (args.map .value) w.args) ↔ ⟨UInt64.ofNat i, op, args⟩ = w := by
    obtain ⟨index, opcode, args'⟩ := w
    rw [forall₂_denotes_iff, Word.mk.injEq]
    simp only [eq_comm]
  have hinstructions : (linearInstructions register terms).zipIdx index = terms.zipIdx.map fun p =>
      (⟨if p.2 = 0 then .linear else .linearCont,
        [register, p.1.factor, p.1.source].map .value⟩, index + p.2) := by
    apply List.ext_getElem?
    intro i
    simp [linearInstructions]
    rfl
  have hwords : linearWords index register terms = terms.zipIdx.map fun p =>
      ⟨UInt64.ofNat (index + p.2), if p.2 = 0 then .linear else .linearCont,
        [register, p.1.factor, p.1.source]⟩ := List.mapIdx_eq_zipIdx_map
  rw [hinstructions, hwords, List.forall₂_map_left_iff]
  simp only [hword]
  rw [← List.forall₂_map_left_iff, List.forall₂_eq_eq_eq, eq_comm]

/-! ### The line in a source -/

variable {source : List Char} {image : Image} {before after : List Statement} {line : Nat}
  {s : Statement} {l : Layout} {mnemonic : List Char} {os : List Operand}

theorem place_linearLine (hregister : HasName register) (hterms : ∀ t ∈ terms, HasName t.source)
    (hne : terms ≠ []) (l : Layout) (line : Nat) :
    l.place ⟨line, some .code, linearLine register terms⟩ = .ok { l with
      code.drafts := l.code.drafts ++
        (linearInstructions register terms).map (Instruction.draft line) } := by
  have hexpand : expand line "linear".toList (.value register ::
      termOperands (terms.map fun t => (.value t.factor, .value t.source))) =
        .ok ((linearInstructions register terms).map (Instruction.draft line)) :=
    expand_eq_ok_iff.2 ⟨_, linear_gives hne, rfl⟩
  rw [Layout.place_code rfl, CodeLayout.placeStatement,
    CodeLayout.place_instruction (read_linearLine hregister hterms), hexpand]
  rfl

theorem code_of_linearLine (hregister : HasName register) (hterms : ∀ t ∈ terms, HasName t.source)
    (hne : terms ≠ []) (hs : statements source =
      before ++ ⟨line, some .code, linearLine register terms⟩ :: after)
    (h : translate source = .ok image) : ∃ code code',
      image.code = code ++ linearWords code.length register terms ++ code' := by
  obtain ⟨o, ho, hbuilds⟩ := translate_eq_ok_iff.1 h
  obtain ⟨is, code, ws, code', his, hcode, -, hwords⟩ := ho.exists_words hbuilds hs rfl
  rw [Statement.codeLine, read_linearLine hregister hterms] at his
  obtain rfl := his.unique (linear_gives hne)
  exact ⟨code, code', forall₂_linear_iff.1 hwords ▸ hcode⟩

theorem translate_linearLine (hregister : HasName register)
    (hterms : ∀ t ∈ terms, HasName t.source) (hne : terms ≠ []) :
    translate (".code\n".toList ++ linearLine register terms) =
      .ok ⟨[⟨0, .number, [1234]⟩, ⟨1, .number, [1234]⟩], linearWords 0 register terms⟩ := by
  have hends {text : List Char} (h : '\n' ∉ text) : ∀ c ∈ text, (c == '\n') = false := by
    intro c hc
    exact beq_false_of_ne fun heq => h (heq ▸ hc)
  have hlines : lines (".code\n".toList ++ linearLine register terms) =
      [".code".toList, linearLine register terms] := by
    have hfirst := hends (show '\n' ∉ ".code".toList by decide)
    have hsecond : ∀ c ∈ linearLine register terms, (c == '\n') = false :=
      hends newline_not_mem_linearLine
    change splitOn _ (".code".toList ++ '\n' :: linearLine register terms) = _
    rw [splitOn_append_cons hfirst rfl, splitOn_of_forall_not hsecond]
  have hstatements : statements (".code\n".toList ++ linearLine register terms) =
      [⟨2, some .code, linearLine register terms⟩] := by
    rw [statements, hlines]
    exact statementsFrom_cons content_linearLine (List.cons_ne_nil _ _) directive?_linearLine
  refine translate_eq_ok_iff.2 ⟨⟨[], [CodeLine.read (linearLine register terms)],
    [linearInstructions register terms]⟩, ?_, rfl, ?_⟩
  · rw [hstatements, read_linearLine hregister hterms]
    refine ⟨List.forall_mem_singleton.2 (Option.some_ne_none _), .nil, .nil, ?_,
      .cons (linear_gives hne) .nil, .nil⟩
    rw [← read_linearLine hregister hterms]
    rfl
  · rw [List.flatten_singleton]
    exact forall₂_linear_iff.2 rfl

theorem translate_badLinearArity (hs : statements source = before ++ s :: after)
    (hbefore : layout before = .ok l) (hplace : s.place = some .code)
    (hread : s.codeLine = .instruction mnemonic os)
    (hmnemonic : mnemonic.map Char.toLower = "linear".toList)
    (hlength : os.length % 2 = 0 ∨ os.length < 3) :
    translate source = .error ⟨s.line, .badLinearArity os.length⟩ := by
  have hform : linearForm s.line os = .error (.badLinearArity os.length) := by
    cases hresult : linearForm s.line os with
    | error cause => rw [linearForm_error hresult]
    | ok ds =>
      obtain ⟨register, factor, source, terms, rfl, -⟩ := linearForm_eq_ok_iff.1 hresult
      simp only [List.length_cons, length_termOperands] at hlength
      omega
  have hexpand : expand s.line mnemonic os = .error (.badLinearArity os.length) := by
    have hlower : mnemonic.map Char.toLower = ['l', 'i', 'n', 'e', 'a', 'r'] := hmnemonic
    rw [expand, if_neg (by simp [hlower]), if_neg (by simp [hlower]), if_pos hlower, hform]
  have hfault : l.place s = .error ⟨s.line, .badLinearArity os.length⟩ := by
    rw [Layout.place_code hplace, CodeLayout.placeStatement, CodeLayout.place_instruction hread,
      hexpand]
    rfl
  have hlayout : layout (statements source) = .error ⟨s.line, .badLinearArity os.length⟩ :=
    foldlM_eq_error_iff.2 ⟨before, s, after, l, hs, hbefore, hfault⟩
  exact except_bind_eq_error_iff.2 (.inl hlayout)

/-! ### From text to value -/

open Machine in
/-- A linear form comes to one word for each term, alone and in any source, unless its operands are
even in number or too few. Its words sum up the terms as they are before the run, or stop with an
overflow at the first term whose product or sum does not fit, when the terms before it are summed
up. -/
theorem linear_form :
    (∀ (register : Int64) (terms : List Term), HasName register →
      (∀ t ∈ terms, HasName t.source) → terms ≠ [] →
      translate (".code\n".toList ++ linearLine register terms) =
        .ok ⟨[⟨0, .number, [1234]⟩, ⟨1, .number, [1234]⟩], linearWords 0 register terms⟩ ∧
      (∀ l line, ∃ l', Layout.place l ⟨line, some .code, linearLine register terms⟩ = .ok l') ∧
      ∀ source image before line after,
        statements source = before ++ ⟨line, some .code, linearLine register terms⟩ :: after →
        translate source = .ok image →
          ∃ code code', image.code = code ++ linearWords code.length register terms ++ code') ∧
    (∀ source before s after l mnemonic os, statements source = before ++ s :: after →
      layout before = .ok l → s.place = some .code → s.codeLine = .instruction mnemonic os →
      mnemonic.map Char.toLower = "linear".toList → os.length % 2 = 0 ∨ os.length < 3 →
        translate source = .error ⟨s.line, .badLinearArity os.length⟩) ∧
    ∀ (m : Machine) (index : Nat) (register : Int64) (terms : List Term),
      m.IsReadyFor index register terms →
      (m.path.IsExact terms → ∃ m', Executes m (linearOpcodes terms) m' ∧
        Sums register terms m m' ∧ (m.tick.toNat + (3 * terms.length - 1) < UInt64.size →
          m'.tick.toNat = m.tick.toNat + (3 * terms.length - 1))) ∧
      (¬ m.path.IsExact terms → ∃ before t after m₁ m₂, terms = before ++ t :: after ∧
        m.path.IsExact before ∧ ¬ m.path.FitsAt before t ∧
        Executes m (linearOpcodes before) m₁ ∧ Sums register before m m₁ ∧ Overflows m₁ m₂ ∧
        DataPath.HoldsSum register before m.path m₂.path) := by
  refine ⟨fun register terms hregister hterms hne => ⟨?_, ?_, ?_⟩, ?_,
    fun m index register terms hm => ⟨run_of_isExact hm, run_of_not_isExact hm⟩⟩
  · exact translate_linearLine hregister hterms hne
  · exact fun l line => ⟨_, place_linearLine hregister hterms hne l line⟩
  · exact fun source image before line after hs => code_of_linearLine hregister hterms hne hs
  · exact fun source before s after l mnemonic os => translate_badLinearArity

theorem linear_form_summed :
    translate ".code\nlinear r1 2 r2 -5 r3".toList =
      .ok ⟨[⟨0, .number, [1234]⟩, ⟨1, .number, [1234]⟩],
        [⟨0, .linear, [0, 2, 1]⟩, ⟨1, .linearCont, [0, -5, 2]⟩]⟩ ∧
    translate ".code\nlinear r1 2 r2 -5".toList = .error ⟨2, .badLinearArity 4⟩ ∧
    (∃ m' s, Machine.Executes ⟨#[⟨0, .linear, [0, 2, 1]⟩, ⟨1, .linearCont, [0, -5, 2]⟩], 0,
        ⟨#[], #[7, 10, 3], 0, 0, false, [], #[]⟩, 0⟩ [.linear, .linearCont] m' ∧
      m'.path.register? 0 = some s ∧ s.toInt = 5 ∧ m'.tick.toNat = 5) ∧
    ∃ before t after m₁ m₂, [⟨1, 1⟩, ⟨1, 2⟩] = before ++ t :: after ∧
      Machine.Executes ⟨#[⟨0, .linear, [0, 1, 1]⟩, ⟨1, .linearCont, [0, 1, 2]⟩], 0,
        ⟨#[], #[7, 9223372036854775807, 1], 0, 0, false, [], #[]⟩, 0⟩
        (Machine.linearOpcodes before) m₁ ∧ Machine.Overflows m₁ m₂ := by
  obtain ⟨hwords, harity, hrun⟩ := linear_form
  have hline : statements ".code\nlinear r1 2 r2 -5".toList =
      [] ++ [⟨2, some .code, "linear r1 2 r2 -5".toList⟩] := rfl
  have hread : Statement.codeLine ⟨2, some .code, "linear r1 2 r2 -5".toList⟩ =
      .instruction "linear".toList [.value 0, .value 2, .value 1, .value (-5)] := rfl
  refine ⟨?_, ?_, ?_, ?_⟩
  · exact (hwords 0 [⟨2, 1⟩, ⟨-5, 2⟩] (by decide) (by decide) (List.cons_ne_nil _ _)).1
  · exact harity _ [] _ [] _ _ _ hline rfl rfl hread rfl (.inl rfl)
  · have hready : Machine.IsReadyFor ⟨#[⟨0, .linear, [0, 2, 1]⟩, ⟨1, .linearCont, [0, -5, 2]⟩], 0,
        ⟨#[], #[7, 10, 3], 0, 0, false, [], #[]⟩, 0⟩ 0 0 [⟨2, 1⟩, ⟨-5, 2⟩] :=
      ⟨⟨[], rfl⟩, by decide, rfl, by decide, by decide⟩
    have hexact : DataPath.IsExact ⟨#[], #[7, 10, 3], 0, 0, false, [], #[]⟩
        ([] ++ [⟨2, 1⟩] ++ [⟨-5, 2⟩]) := by
      refine DataPath.isExact_append_singleton.2 ⟨?_, by decide⟩
      exact DataPath.isExact_append_singleton.2 ⟨DataPath.isExact_nil _, by decide⟩
    obtain ⟨m', hm', hsums, htick⟩ := (hrun _ _ _ _ hready).1 hexact
    obtain ⟨s, hs, hform⟩ := hsums.sum
    exact ⟨m', s, hm', hs, hform, htick (by decide)⟩
  · have hready : Machine.IsReadyFor ⟨#[⟨0, .linear, [0, 1, 1]⟩, ⟨1, .linearCont, [0, 1, 2]⟩], 0,
        ⟨#[], #[7, 9223372036854775807, 1], 0, 0, false, [], #[]⟩, 0⟩ 0 0 [⟨1, 1⟩, ⟨1, 2⟩] :=
      ⟨⟨[], rfl⟩, by decide, rfl, by decide, by decide⟩
    have hinexact : ¬ DataPath.IsExact ⟨#[], #[7, 9223372036854775807, 1], 0, 0, false, [], #[]⟩
        [⟨1, 1⟩, ⟨1, 2⟩] := by
      intro hexact
      have hsum := (hexact [⟨1, 1⟩] ⟨1, 2⟩ [] rfl).2
      revert hsum
      decide
    obtain ⟨before, t, after, m₁, m₂, hsplit, -, -, hm₁, -, hm₂, -⟩ :=
      (hrun _ _ _ _ hready).2 hinexact
    exact ⟨before, t, after, m₁, m₂, hsplit, hm₁, hm₂⟩

end TickMachine.Assembly
