import TickMachine.Proofs.Assembly.Lines
import TickMachine.Proofs.Assembly.Sections

/-! Statements with their texts read. What a statement says depends on its section, and nothing but
what the statements say and on which lines they stand makes a difference to the translation. -/

namespace TickMachine.Assembly

open Text

/-- What a statement says: nothing outside of the sections, a declaration in a section of data if it
is complete, and a line of code in a section of code. -/
inductive Reading
  | outside
  | declaration (d : Option Declaration)
  | code (line : CodeLine)

structure Clause where
  line : Nat
  reading : Reading

def Reading.ofText (text : List Char) : Option Section → Reading
  | none => .outside
  | some .data => .declaration (Declaration.read? text)
  | some .code => .code (CodeLine.read text)

def Statement.clause (s : Statement) : Clause := ⟨s.line, .ofText s.text s.place⟩

def DataLayout.add (l : DataLayout) : Option Declaration → Except Cause DataLayout
  | none => .error (.malformedData .incomplete)
  | some d =>
    match dataKind? d.kind with
    | none => .error (.unknownDataKind d.kind)
    | some kind =>
      if (l.names.lookup d.name).isSome then .error (.duplicateSymbol d.name)
      else (cellValues kind d.value).map fun values =>
        ⟨l.cells ++ cellsFrom l.cells.length kind values,
          (d.name, Int64.ofNat l.cells.length) :: l.names⟩

def CodeLayout.add (l : CodeLayout) (line : Nat) : CodeLine → Except Cause CodeLayout
  | .label name =>
    if (l.labels.lookup name).isSome then .error (.duplicateSymbol name)
    else .ok ⟨l.drafts, (name, Int64.ofNat l.drafts.length) :: l.labels⟩
  | .instruction mnemonic operands =>
    (expand line mnemonic operands).map fun ds => ⟨l.drafts ++ ds, l.labels⟩

def Layout.add (l : Layout) (c : Clause) : Except Fault Layout :=
  Except.mapError (Fault.mk c.line) <|
    match c.reading with
    | .outside => .error .noSection
    | .declaration d => (l.data.add d).map fun data => ⟨data, l.code⟩
    | .code line => (l.code.add c.line line).map fun code => ⟨l.data, code⟩

def assemble (cs : List Clause) : Except Fault Image := do
  (← cs.foldlM Layout.add Layout.start).image

theorem DataLayout.declare_eq_add (l : DataLayout) (text : List Char) :
    l.declare text = l.add (Declaration.read? text) := by
  rw [declare]
  cases Declaration.read? text with
  | none => rfl
  | some d =>
    simp only [add]
    cases dataKind? d.kind with
    | none => rfl
    | some kind =>
      simp only
      split
      · rfl
      · cases cellValues kind d.value <;> rfl

theorem CodeLayout.place_eq_add (l : CodeLayout) (line : Nat) (text : List Char) :
    l.place line text = l.add line (CodeLine.read text) := by
  rw [place]
  cases CodeLine.read text with
  | label name =>
    simp only [add]
    split <;> rfl
  | instruction mnemonic operands =>
    simp only [add]
    cases expand line mnemonic operands <;> rfl

theorem Layout.place_eq_add (l : Layout) (s : Statement) : l.place s = l.add s.clause := by
  obtain ⟨line, place, text⟩ := s
  match place with
  | none => rfl
  | some .data =>
    rw [place_data rfl, DataLayout.declare_eq_add]
    simp only [add, Statement.clause, Reading.ofText]
    cases l.data.add (Declaration.read? text) <;> rfl
  | some .code =>
    rw [place_code rfl, CodeLayout.placeStatement, CodeLayout.place_eq_add]
    simp only [add, Statement.clause, Reading.ofText]
    cases l.code.add line (CodeLine.read text) <;> rfl

/-! ### Clauses line by line -/

def openAfter (place : Option Section) (raw : List Char) : Option Section :=
  (directive? (content raw)).or place

def said? (place : Option Section) (raw : List Char) : Option Reading :=
  if content raw = [] ∨ (directive? (content raw)).isSome then none
  else some (.ofText (content raw) place)

def clausesFrom (line : Nat) (place : Option Section) (raws : List (List Char)) : List Clause :=
  (statementsFrom line place raws).map Statement.clause

variable {line : Nat} {place : Option Section} {raw : List Char} {raws : List (List Char)}

theorem translate_eq_assemble (source : List Char) :
    translate source = assemble (clausesFrom 1 none (lines source)) := by
  have hplace : Layout.place = fun l s => l.add s.clause :=
    funext fun l => funext fun s => l.place_eq_add s
  have hlayout : layout (statements source) =
      (clausesFrom 1 none (lines source)).foldlM Layout.add Layout.start := by
    rw [layout, clausesFrom, List.foldlM_map, hplace]
    rfl
  rw [translate, hlayout, assemble]

theorem clausesFrom_singleton :
    clausesFrom line place [raw] = ((said? place raw).map (Clause.mk line)).toList := by
  simp only [clausesFrom, statementsFrom, said?]
  by_cases hblank : content raw = []
  · rw [if_pos hblank, if_pos (.inl hblank)]
    rfl
  · rw [if_neg hblank]
    cases directive? (content raw) <;> simp [hblank, Statement.clause]

theorem clausesFrom_cons : clausesFrom line place (raw :: raws) =
    clausesFrom line place [raw] ++ clausesFrom (line + 1) (openAfter place raw) raws := by
  rw [clausesFrom_singleton, openAfter]
  simp only [clausesFrom, statementsFrom, said?]
  by_cases hblank : content raw = []
  · rw [if_pos hblank, if_pos (.inl hblank), hblank]
    rfl
  · rw [if_neg hblank]
    cases directive? (content raw) <;> simp [hblank, Statement.clause]

theorem clausesFrom_append (block raws : List (List Char)) :
    clausesFrom line place (block ++ raws) = clausesFrom line place block ++
      clausesFrom (line + block.length) (block.foldl openAfter place) raws := by
  induction block generalizing line place with
  | nil => rfl
  | cons raw block ih =>
    have hline : line + (raw :: block).length = line + 1 + block.length := by
      rw [List.length_cons]
      omega
    have hblock : clausesFrom line place (raw :: block) = _ := clausesFrom_cons
    rw [List.cons_append, clausesFrom_cons, ih, hblock, List.append_assoc, hline]
    rfl

theorem said?_of_blank (h : content raw = []) : said? place raw = none := if_pos (.inl h)

theorem said?_eq_some (h : said? place raw = some r) :
    content raw ≠ [] ∧ directive? (content raw) = none ∧ r = .ofText (content raw) place := by
  rw [said?] at h
  split at h
  · cases h
  · next hvisible =>
    rw [not_or, Bool.not_eq_true, Option.isSome_eq_false_iff, Option.isNone_iff_eq_none] at hvisible
    exact ⟨hvisible.1, hvisible.2, (Option.some.inj h).symm⟩

theorem openAfter_of_blank (h : content raw = []) : openAfter place raw = place := by
  rw [openAfter, h]
  rfl

end TickMachine.Assembly
