import TickMachine.Proofs.Assembly.Shape
import TickMachine.Proofs.Isa.Format
import TickMachine.Proofs.Traversal

/-! What each statement says by itself, apart from where it comes to lie: a data statement declares
a name with its cells, and a code statement is a label or gives instructions. A statement is laid
out if it says something and defines no name that is taken. -/

namespace TickMachine

theorem Opcode.ofMnemonic?_eq_some_iff {text : List Char} {op : Opcode} :
    ofMnemonic? text = some op ↔ text.map Char.toLower = op.mnemonic.toList := by
  rw [ofMnemonic?, ofExact?_eq_some_iff, ← String.toList_inj, String.toList_ofList]

namespace Assembly

open Text

def IsUnquoted (value chars : List Char) : Prop :=
  ∃ n m, value = List.replicate n '"' ++ chars ++ List.replicate m '"' ∧
    chars.head? ≠ some '"' ∧ chars.getLast? ≠ some '"'

structure Declared where
  name : List Char
  kind : Opcode
  values : List Int64

/-- What the cells of a declaration hold, by its kind and its value as it is written. -/
inductive Holds : Opcode → List Char → List Int64 → Prop
  | number {text : List Char} {v : Int64} (h : int64? text = some v) : Holds .number text [v]
  | string {text chars : List Char} (h : IsUnquoted text chars) :
    Holds .string text (chars.map (fun c => Int64.ofNat c.toNat) ++ [0])
  | buffer {text : List Char} {v : Int64} {size : Nat} (h : int64? text = some v)
    (hsize : v.toInt = size) : Holds .buffer text (List.replicate size 0)

def Declares (text : List Char) (d : Declared) : Prop :=
  ∃ kind value, Declaration.read? text = some ⟨kind, d.name, value⟩ ∧
    kind.map Char.toLower = d.kind.mnemonic.toList ∧ Holds d.kind value d.values

structure Instruction where
  opcode : Opcode
  operands : List Operand

def Instruction.draft (line : Nat) (i : Instruction) : Draft := ⟨line, i.opcode, i.operands⟩

def termOperands (terms : List (Operand × Operand)) : List Operand :=
  terms.flatMap fun t => [t.1, t.2]

/-- What a line of code stands for: a label for nothing, `input` and `output` for a load and a store
with the port filled in, a linear form for a word with its first term and one word more for each
further term, and any other instruction for itself. -/
inductive CodeLine.Gives : CodeLine → List Instruction → Prop
  | label {name : List Char} : Gives (.label name) []
  | input {mnemonic : List Char} {register : Operand}
    (h : mnemonic.map Char.toLower = "input".toList) :
    Gives (.instruction mnemonic [register]) [⟨.loadV, [register, .value 0]⟩]
  | output {mnemonic : List Char} {register : Operand}
    (h : mnemonic.map Char.toLower = "output".toList) :
    Gives (.instruction mnemonic [register]) [⟨.storeV, [.value 1, register]⟩]
  | linear {mnemonic : List Char} {register factor source : Operand}
    {terms : List (Operand × Operand)} (h : mnemonic.map Char.toLower = "linear".toList) :
    Gives (.instruction mnemonic
        (register :: factor :: source :: termOperands terms))
      (⟨.linear, [register, factor, source]⟩ ::
        terms.map fun t => ⟨.linearCont, [register, t.1, t.2]⟩)
  | plain {mnemonic : List Char} {opcode : Opcode} {operands : List Operand}
    (h : mnemonic.map Char.toLower = opcode.mnemonic.toList) (hdata : opcode.isData = false)
    (hlinear : opcode ≠ .linear) (hlength : operands.length = opcode.signature.length) :
    Gives (.instruction mnemonic operands) [⟨opcode, operands⟩]

def CodeLine.label? : CodeLine → Option (List Char)
  | .label name => some name
  | .instruction _ _ => none

def CodeLine.wordCount : CodeLine → Nat
  | .label _ => 0
  | .instruction mnemonic operands =>
    if mnemonic.map Char.toLower = "linear".toList then (operands.length - 1) / 2 else 1

def Statement.codeLine (s : Statement) : CodeLine := CodeLine.read s.text

def DataLayout.extend (l : DataLayout) (d : Declared) : DataLayout :=
  ⟨l.cells ++ cellsFrom l.cells.length d.kind d.values,
    (d.name, Int64.ofNat l.cells.length) :: l.names⟩

def CodeLayout.extend (l : CodeLayout) (line : Nat) (c : CodeLine) (is : List Instruction) :
    CodeLayout :=
  ⟨l.drafts ++ is.map (Instruction.draft line),
    c.label?.toList.map (fun name => (name, Int64.ofNat l.drafts.length)) ++ l.labels⟩

variable {text value name mnemonic : List Char} {kind opcode : Opcode} {values : List Int64}
  {line : Nat} {os : List Operand} {ds : List Draft} {is : List Instruction} {c : CodeLine}

/-! ### Data statements -/

theorem dataKind?_eq_some_iff : dataKind? text = some kind ↔
    kind.isData ∧ text.map Char.toLower = kind.mnemonic.toList := by
  rw [dataKind?, Option.filter_eq_some_iff, Opcode.ofMnemonic?_eq_some_iff, and_comm]

theorem Holds.isData (h : Holds kind value values) : kind.isData := by
  cases h <;> rfl

theorem integer_eq_ok_iff {v : Int64} : integer text = .ok v ↔ int64? text = some v := by
  rw [integer]
  cases int64? text <;> simp

theorem cellValues_eq_ok_iff (hdata : kind.isData) :
    cellValues kind value = .ok values ↔ Holds kind value values := by
  constructor
  · intro h
    cases kind with
    | number =>
      obtain ⟨v, hv, h⟩ := except_bind_eq_ok_iff.1 h
      obtain rfl := Except.ok.inj h
      exact .number (integer_eq_ok_iff.1 hv)
    | string =>
      obtain rfl := Except.ok.inj h
      exact .string (trimWhile_eq_iff.1 rfl)
    | buffer =>
      obtain ⟨v, hv, h⟩ := except_bind_eq_ok_iff.1 h
      split at h
      · cases h
      · next hneg =>
        obtain rfl := Except.ok.inj h
        exact .buffer (integer_eq_ok_iff.1 hv) (Int.toNat_of_nonneg (Int.not_lt.1 hneg)).symm
    | _ => cases hdata
  · intro h
    cases h with
    | number h => exact except_bind_eq_ok_iff.2 ⟨_, integer_eq_ok_iff.2 h, rfl⟩
    | string h =>
      rw [cellValues, trimWhile_eq_iff.2 h]
      rfl
    | buffer h hsize =>
      refine except_bind_eq_ok_iff.2 ⟨_, integer_eq_ok_iff.2 h, ?_⟩
      rw [hsize, if_neg (Int.not_lt.2 (Int.natCast_nonneg _))]
      rfl

theorem DataLayout.declare_eq_ok_iff {l l' : DataLayout} : l.declare text = .ok l' ↔
    ∃ d, Declares text d ∧ l.names.lookup d.name = none ∧ l.extend d = l' := by
  constructor
  · intro h
    unfold declare at h
    split at h
    · next r hread =>
      split at h
      · next kind hkind =>
        split at h
        · cases h
        · next hname =>
          obtain ⟨values, hvalues, h⟩ := except_bind_eq_ok_iff.1 h
          obtain ⟨hdata, hmnemonic⟩ := dataKind?_eq_some_iff.1 hkind
          have hholds := (cellValues_eq_ok_iff hdata).1 hvalues
          have hfree : l.names.lookup r.name = none := Option.not_isSome_iff_eq_none.1 hname
          exact ⟨⟨r.name, kind, values⟩, ⟨r.kind, r.value, hread, hmnemonic, hholds⟩, hfree,
            Except.ok.inj h⟩
      · cases h
    · cases h
  · rintro ⟨d, ⟨kind, value, hread, hmnemonic, hholds⟩, hfree, rfl⟩
    have hkind := dataKind?_eq_some_iff.2 ⟨hholds.isData, hmnemonic⟩
    have hvalues := (cellValues_eq_ok_iff hholds.isData).2 hholds
    simp only [declare, hread, hkind, hfree, hvalues]
    rfl

/-! ### Code statements -/

theorem exists_termOperands (os : List Operand) (h : os.length % 2 = 0) :
    ∃ terms, os = termOperands terms := by
  match os, h with
  | [], _ => exact ⟨[], rfl⟩
  | factor :: source :: rest, h =>
    have hrest : rest.length % 2 = 0 := by
      rw [List.length_cons, List.length_cons] at h
      omega
    obtain ⟨terms, rfl⟩ := exists_termOperands rest hrest
    exact ⟨(factor, source) :: terms, rfl⟩

theorem length_termOperands (terms : List (Operand × Operand)) :
    (termOperands terms).length = 2 * terms.length := by
  induction terms with
  | nil => rfl
  | cons t terms ih =>
    change (termOperands terms).length + 1 + 1 = _
    rw [ih, List.length_cons]
    omega

theorem furtherTerms_termOperands (line : Nat) (register : Operand)
    (terms : List (Operand × Operand)) : furtherTerms line register (termOperands terms) =
      terms.map fun t => ⟨line, .linearCont, [register, t.1, t.2]⟩ := by
  induction terms with
  | nil => rfl
  | cons t terms ih =>
    change _ :: furtherTerms line register (termOperands terms) = _
    rw [ih, List.map_cons]

theorem linearForm_eq_ok_iff : linearForm line os = .ok ds ↔
    ∃ register factor source terms, os = register :: factor :: source :: termOperands terms ∧
      ds = ⟨line, .linear, [register, factor, source]⟩ ::
        terms.map fun t => ⟨line, .linearCont, [register, t.1, t.2]⟩ := by
  constructor
  · intro h
    rw [linearForm.eq_def] at h
    split at h
    · next register factor source rest =>
      split at h
      · next hrest =>
        obtain ⟨terms, rfl⟩ := exists_termOperands rest hrest
        rw [furtherTerms_termOperands] at h
        exact ⟨register, factor, source, terms, rfl, (Except.ok.inj h).symm⟩
      · cases h
    · cases h
  · rintro ⟨register, factor, source, terms, rfl, rfl⟩
    have heven : (termOperands terms).length % 2 = 0 := by
      rw [length_termOperands]
      omega
    rw [linearForm, if_pos heven, furtherTerms_termOperands]

theorem single_eq_ok_iff : single line opcode os = .ok ds ↔
    os.length = opcode.signature.length ∧ ds = [⟨line, opcode, os⟩] := by
  rw [single]
  split
  · next h => simp [h, eq_comm]
  · next h => simp [h]

theorem instruction?_eq_some_iff : instruction? mnemonic = some opcode ↔
    mnemonic.map Char.toLower = opcode.mnemonic.toList ∧ opcode.isData = false := by
  rw [instruction?, Option.filter_eq_some_iff, Opcode.ofMnemonic?_eq_some_iff, Bool.not_eq_true']

theorem mnemonic_ne_pseudo (h : opcode ≠ .linear) :
    ∀ name ∈ [['i', 'n', 'p', 'u', 't'], ['o', 'u', 't', 'p', 'u', 't'],
      ['l', 'i', 'n', 'e', 'a', 'r']], opcode.mnemonic.toList ≠ name := by
  cases opcode <;> first | decide | exact absurd rfl h

theorem expand_eq_ok_iff : expand line mnemonic os = .ok ds ↔
    ∃ is, (CodeLine.instruction mnemonic os).Gives is ∧ is.map (Instruction.draft line) = ds := by
  constructor
  · intro h
    simp only [expand] at h
    split at h
    · next hinput =>
      obtain ⟨hlength, rfl⟩ := single_eq_ok_iff.1 h
      obtain ⟨register, rfl⟩ : ∃ register, os = [register] := by
        rw [List.length_append] at hlength
        exact List.length_eq_one_iff.1 (Nat.succ.inj hlength)
      exact ⟨_, .input hinput, rfl⟩
    split at h
    · next houtput =>
      obtain ⟨hlength, rfl⟩ := single_eq_ok_iff.1 h
      obtain ⟨register, rfl⟩ := List.length_eq_one_iff.1 (Nat.succ.inj hlength)
      exact ⟨_, .output houtput, rfl⟩
    split at h
    · next hlinear =>
      obtain ⟨register, factor, source, terms, rfl, rfl⟩ := linearForm_eq_ok_iff.1 h
      exact ⟨_, .linear hlinear, by simp [Instruction.draft]⟩
    split at h
    · next hlinear _ opcode hopcode =>
      obtain ⟨hmnemonic, hdata⟩ := instruction?_eq_some_iff.1 hopcode
      obtain ⟨hlength, rfl⟩ := single_eq_ok_iff.1 h
      refine ⟨_, .plain hmnemonic hdata ?_ hlength, rfl⟩
      rintro rfl
      exact hlinear hmnemonic
    · cases h
  · rintro ⟨is, hgives, rfl⟩
    cases hgives with
    | input h =>
      have hlower : mnemonic.map Char.toLower = ['i', 'n', 'p', 'u', 't'] := h
      rw [expand, if_pos hlower]
      rfl
    | output h =>
      have hlower : mnemonic.map Char.toLower = ['o', 'u', 't', 'p', 'u', 't'] := h
      rw [expand, if_neg (by simp [hlower]), if_pos hlower]
      rfl
    | linear h =>
      have hlower : mnemonic.map Char.toLower = ['l', 'i', 'n', 'e', 'a', 'r'] := h
      rw [expand, if_neg (by simp [hlower]), if_neg (by simp [hlower]), if_pos hlower]
      exact linearForm_eq_ok_iff.2 ⟨_, _, _, _, rfl, by simp [Instruction.draft]⟩
    | plain h hdata hlinear hlength =>
      have hpseudo := mnemonic_ne_pseudo hlinear
      rw [← h] at hpseudo
      simp only [List.forall_mem_cons] at hpseudo
      obtain ⟨hinput, houtput, hform, -⟩ := hpseudo
      rw [expand, if_neg hinput, if_neg houtput, if_neg hform,
        instruction?_eq_some_iff.2 ⟨h, hdata⟩]
      exact single_eq_ok_iff.2 ⟨hlength, rfl⟩

theorem CodeLayout.place_label {l : CodeLayout} (h : CodeLine.read text = .label name) :
    l.place line text = if (l.labels.lookup name).isSome then .error (.duplicateSymbol name)
      else .ok { l with labels := (name, Int64.ofNat l.drafts.length) :: l.labels } := by
  simp only [place, h]
  split <;> rfl

theorem CodeLayout.place_instruction {l : CodeLayout}
    (h : CodeLine.read text = .instruction mnemonic os) : l.place line text =
      expand line mnemonic os >>= fun ds => .ok { l with drafts := l.drafts ++ ds } := by
  simp only [place, h]
  rfl

theorem CodeLayout.place_eq_ok_iff {l l' : CodeLayout} : l.place line text = .ok l' ↔
    ∃ is, (CodeLine.read text).Gives is ∧
      (∀ name, (CodeLine.read text).label? = some name → l.labels.lookup name = none) ∧
      l.extend line (CodeLine.read text) is = l' := by
  cases hread : CodeLine.read text with
  | label name =>
    have hextend : l.extend line (.label name) [] =
        { l with labels := (name, Int64.ofNat l.drafts.length) :: l.labels } := by
      simp [extend, CodeLine.label?]
    rw [place_label hread]
    split
    · next htaken =>
      constructor
      · exact nofun
      · rintro ⟨is, -, hfree, -⟩
        rw [hfree name rfl] at htaken
        cases htaken
    · next hfree =>
      constructor
      · intro h
        refine ⟨[], .label, ?_, hextend.trans (Except.ok.inj h)⟩
        rintro _ ⟨⟩
        exact Option.not_isSome_iff_eq_none.1 hfree
      · rintro ⟨_, ⟨⟩, -, rfl⟩
        rw [hextend]
  | instruction mnemonic os =>
    simp only [place_instruction hread, except_bind_eq_ok_iff, expand_eq_ok_iff]
    constructor
    · rintro ⟨_, ⟨is, hgives, rfl⟩, h⟩
      exact ⟨is, hgives, nofun, Except.ok.inj h⟩
    · rintro ⟨is, hgives, -, rfl⟩
      exact ⟨_, ⟨is, hgives, rfl⟩, rfl⟩

theorem CodeLine.Gives.length_eq (h : c.Gives is) : is.length = c.wordCount := by
  cases h with
  | label => rfl
  | input h => simp [wordCount, h]
  | output h => simp [wordCount, h]
  | linear h =>
    rw [wordCount, if_pos h]
    simp only [List.length_cons, List.length_map, length_termOperands]
    omega
  | plain h hdata hlinear hlength =>
    have hne := mnemonic_ne_pseudo hlinear "linear".toList (by decide)
    rw [wordCount, if_neg (h ▸ hne)]
    rfl

theorem CodeLine.Gives.mem_operands {i : Instruction}
    (h : (CodeLine.instruction mnemonic os).Gives is) (hi : i ∈ is)
    (hname : .symbol name ∈ i.operands) : .symbol name ∈ os := by
  cases h with
  | input h => grind
  | output h => grind
  | linear h => grind [termOperands]
  | plain h hdata hlinear hlength => grind

end Assembly
end TickMachine
