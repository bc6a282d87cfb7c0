import Mathlib.Data.Set.Function
import TickMachine.Proofs.Assembly.Clauses

/-! Other numbers for the lines, other names for labels and variables, and another spelling of
mnemonics and kinds. As long as different names stay different and a spelling differs in case only,
the image is the same, and a fault is the same but for the number of its line and the word that it
quotes. -/

namespace TickMachine.Assembly

structure Recoding where
  line : Nat → Nat := id
  name : List Char → List Char := id
  word : List Char → List Char := id

variable (c : Recoding)

def Operand.recode : Operand → Operand
  | .value v => .value v
  | .symbol name => .symbol (c.name name)

def CodeLine.recode : CodeLine → CodeLine
  | .label name => .label (c.name name)
  | .instruction mnemonic os => .instruction (c.word mnemonic) (os.map (Operand.recode c))

def Declaration.recode (d : Declaration) : Declaration := ⟨c.word d.kind, c.name d.name, d.value⟩

def Reading.recode : Reading → Reading
  | .outside => .outside
  | .declaration d => .declaration (d.map (Declaration.recode c))
  | .code line => .code (line.recode c)

def Clause.recode (x : Clause) : Clause := ⟨c.line x.line, x.reading.recode c⟩

def Cause.recode : Cause → Cause
  | .unknownDataKind kind => .unknownDataKind (c.word kind)
  | .unknownMnemonic mnemonic => .unknownMnemonic (c.word mnemonic)
  | .duplicateSymbol name => .duplicateSymbol (c.name name)
  | .unresolvedSymbol name => .unresolvedSymbol (c.name name)
  | cause => cause

def Fault.recode (fault : Fault) : Fault := ⟨c.line fault.line, fault.cause.recode c⟩

def Draft.recode (d : Draft) : Draft := ⟨c.line d.line, d.opcode, d.operands.map (Operand.recode c)⟩

def recodeSymbols (names : Symbols) : Symbols := names.map fun x => (c.name x.1, x.2)

def DataLayout.recode (l : DataLayout) : DataLayout := ⟨l.cells, recodeSymbols c l.names⟩

def CodeLayout.recode (l : CodeLayout) : CodeLayout :=
  ⟨l.drafts.map (Draft.recode c), recodeSymbols c l.labels⟩

def Layout.recode (l : Layout) : Layout := ⟨l.data.recode c, l.code.recode c⟩

def Reading.names : Reading → List (List Char)
  | .outside => []
  | .declaration d => (d.map Declaration.name).toList
  | .code (.label name) => [name]
  | .code (.instruction _ os) => os.filterMap fun
    | .value _ => none
    | .symbol name => some name

/-- Names in `names` stay apart, and the spelling of a word changes in case only. -/
structure Recoding.IsFaithful (names : List (List Char)) : Prop where
  name : Set.InjOn c.name {name | name ∈ names}
  word : ∀ word, (c.word word).map Char.toLower = word.map Char.toLower

structure Layout.UsesOnly (l : Layout) (names : List (List Char)) : Prop where
  declared : ∀ x ∈ l.data.names, x.1 ∈ names
  labels : ∀ x ∈ l.code.labels, x.1 ∈ names
  operands : ∀ d ∈ l.code.drafts, ∀ name, .symbol name ∈ d.operands → name ∈ names

variable {c} {names : List (List Char)} {name text mnemonic : List Char} {line : Nat}
  {os : List Operand} {l : Layout} {x : Clause} {opcode : Opcode}

/-! ### Instructions -/

theorem single_recode : single (c.line line) opcode (os.map (Operand.recode c)) =
    mapBoth (Cause.recode c) (List.map (Draft.recode c)) (single line opcode os) := by
  rw [single, single, List.length_map]
  split <;> rfl

theorem furtherTerms_recode (register : Operand) (os : List Operand) :
    furtherTerms (c.line line) (register.recode c) (os.map (Operand.recode c)) =
      (furtherTerms line register os).map (Draft.recode c) := by
  fun_induction furtherTerms line register os with
  | case1 factor source rest ih => exact congrArg _ ih
  | case2 os h =>
    cases os with
    | nil => rfl
    | cons factor os =>
      cases os with
      | nil => rfl
      | cons source rest => exact absurd rfl (h factor source rest)

theorem linearForm_recode (os : List Operand) :
    linearForm (c.line line) (os.map (Operand.recode c)) =
      mapBoth (Cause.recode c) (List.map (Draft.recode c)) (linearForm line os) := by
  match os with
  | [] => rfl
  | [_] => rfl
  | [_, _] => rfl
  | register :: factor :: source :: rest =>
    simp only [List.map_cons, linearForm, List.length_map, furtherTerms_recode]
    split <;> rfl

theorem instruction?_congr {mnemonic' : List Char}
    (h : mnemonic'.map Char.toLower = mnemonic.map Char.toLower) :
    instruction? mnemonic' = instruction? mnemonic := by
  rw [instruction?, instruction?, Opcode.ofMnemonic?, Opcode.ofMnemonic?, h]

theorem dataKind?_congr {kind kind' : List Char}
    (h : kind'.map Char.toLower = kind.map Char.toLower) : dataKind? kind' = dataKind? kind := by
  rw [dataKind?, dataKind?, Opcode.ofMnemonic?, Opcode.ofMnemonic?, h]

theorem expand_recode (h : (c.word mnemonic).map Char.toLower = mnemonic.map Char.toLower) :
    expand (c.line line) (c.word mnemonic) (os.map (Operand.recode c)) =
      mapBoth (Cause.recode c) (List.map (Draft.recode c)) (expand line mnemonic os) := by
  have hinput : os.map (Operand.recode c) ++ [Operand.value 0] =
      (os ++ [Operand.value 0]).map (Operand.recode c) := by rw [List.map_append]; rfl
  have houtput : Operand.value 1 :: os.map (Operand.recode c) =
      (Operand.value 1 :: os).map (Operand.recode c) := rfl
  simp only [expand, h, hinput, houtput, single_recode, linearForm_recode, instruction?_congr h]
  split
  · rfl
  split
  · rfl
  split
  · rfl
  cases instruction? mnemonic <;> rfl

/-! ### Layouts -/

theorem lookup_recodeSymbols {symbols : Symbols} (h : c.IsFaithful names) (hname : name ∈ names)
    (hsymbols : ∀ x ∈ symbols, x.1 ∈ names) :
    (recodeSymbols c symbols).lookup (c.name name) = symbols.lookup name := by
  induction symbols with
  | nil => rfl
  | cons x symbols ih =>
    obtain ⟨hx, hsymbols⟩ := List.forall_mem_cons.1 hsymbols
    have hsame : (c.name name == c.name x.1) = (name == x.1) := by
      rw [Bool.eq_iff_iff, beq_iff_eq, beq_iff_eq]
      exact ⟨fun heq => h.name hname hx heq, congrArg c.name⟩
    rw [recodeSymbols, List.map_cons, List.lookup_cons, List.lookup_cons, hsame]
    cases name == x.1 with
    | true => rfl
    | false => exact ih hsymbols

theorem cellValues_recode (c : Recoding) (kind : Opcode) (text : List Char) :
    mapBoth (Cause.recode c) id (cellValues kind text) = cellValues kind text := by
  unfold cellValues
  cases kind with
  | string => rfl
  | number =>
    rw [integer]
    cases Text.int64? text <;> rfl
  | _ =>
    rw [integer]
    cases Text.int64? text with
    | none => rfl
    | some size =>
      simp only [bind, Except.bind]
      split <;> rfl

theorem DataLayout.add_recode {l : DataLayout} {d : Option Declaration} (h : c.IsFaithful names)
    (hnames : ∀ name ∈ Reading.names (.declaration d), name ∈ names)
    (hl : ∀ x ∈ l.names, x.1 ∈ names) : (l.recode c).add (d.map (Declaration.recode c)) =
      mapBoth (Cause.recode c) (DataLayout.recode c) (l.add d) := by
  cases d with
  | none => rfl
  | some d =>
    have hname := hnames d.name (List.mem_singleton_self _)
    have hlookup := lookup_recodeSymbols h hname hl
    simp only [Option.map_some, add, Declaration.recode, dataKind?_congr (h.word d.kind),
      DataLayout.recode, hlookup]
    cases dataKind? d.kind with
    | none => rfl
    | some kind =>
      simp only
      split
      · rfl
      · have hvalues := (cellValues_recode c kind d.value).symm
        exact (congrArg (Except.map _) hvalues).trans (mapBoth_map fun values => rfl)

theorem CodeLayout.add_recode {l : CodeLayout} {code : CodeLine} (h : c.IsFaithful names)
    (hnames : ∀ name ∈ Reading.names (.code code), name ∈ names)
    (hl : ∀ x ∈ l.labels, x.1 ∈ names) : (l.recode c).add (c.line line) (code.recode c) =
      mapBoth (Cause.recode c) (CodeLayout.recode c) (l.add line code) := by
  cases code with
  | label name =>
    have hlookup := lookup_recodeSymbols h (hnames name (List.mem_singleton_self _)) hl
    simp only [add, CodeLine.recode, CodeLayout.recode, hlookup, List.length_map]
    split <;> rfl
  | instruction mnemonic os =>
    simp only [add, CodeLine.recode, expand_recode (h.word mnemonic)]
    refine mapBoth_map fun ds => ?_
    simp [CodeLayout.recode]

theorem Layout.add_recode (h : c.IsFaithful names) (hx : ∀ name ∈ x.reading.names, name ∈ names)
    (hl : l.UsesOnly names) : (l.recode c).add (x.recode c) =
      mapBoth (Fault.recode c) (Layout.recode c) (l.add x) := by
  have hfault (y : Except Cause Layout) :
      (mapBoth (Cause.recode c) (Layout.recode c) y).mapError (Fault.mk (c.line x.line)) =
        mapBoth (Fault.recode c) (Layout.recode c) (y.mapError (Fault.mk x.line)) := by
    cases y <;> rfl
  obtain ⟨line, reading⟩ := x
  cases reading with
  | outside => rfl
  | declaration d =>
    refine Eq.trans ?_ (hfault _)
    simp only [add, Clause.recode, Reading.recode, Layout.recode,
      DataLayout.add_recode h hx hl.declared]
    exact congrArg _ (mapBoth_map fun data => rfl)
  | code code =>
    refine Eq.trans ?_ (hfault _)
    simp only [add, Clause.recode, Reading.recode, Layout.recode,
      CodeLayout.add_recode h hx hl.labels]
    exact congrArg _ (mapBoth_map fun data => rfl)

theorem Layout.UsesOnly.add {l' : Layout} (hl : l.UsesOnly names)
    (hx : ∀ name ∈ x.reading.names, name ∈ names) (h : l.add x = .ok l') : l'.UsesOnly names := by
  obtain ⟨line, reading⟩ := x
  rw [Layout.add, mapError_eq_ok_iff] at h
  cases reading with
  | outside => cases h
  | declaration d =>
    obtain ⟨data, hdata, rfl⟩ := except_map_eq_ok_iff.1 h
    cases d with
    | none => cases hdata
    | some d =>
      rw [DataLayout.add] at hdata
      split at hdata
      · cases hdata
      · split at hdata
        · cases hdata
        · obtain ⟨values, -, rfl⟩ := except_map_eq_ok_iff.1 hdata
          have hname := hx d.name (List.mem_singleton_self _)
          exact ⟨List.forall_mem_cons.2 ⟨hname, hl.declared⟩, hl.labels, hl.operands⟩
  | code code =>
    obtain ⟨code', hcode, rfl⟩ := except_map_eq_ok_iff.1 h
    cases code with
    | label name =>
      rw [CodeLayout.add] at hcode
      split at hcode
      · cases hcode
      · obtain rfl := Except.ok.inj hcode
        have hname := hx name (List.mem_singleton_self _)
        exact ⟨hl.declared, List.forall_mem_cons.2 ⟨hname, hl.labels⟩, hl.operands⟩
    | instruction mnemonic os =>
      obtain ⟨ds, hds, rfl⟩ := except_map_eq_ok_iff.1 hcode
      obtain ⟨is, his, rfl⟩ := expand_eq_ok_iff.1 hds
      refine ⟨hl.declared, hl.labels, List.forall_mem_append.2 ⟨hl.operands, ?_⟩⟩
      rw [List.forall_mem_map]
      intro i hi name hname
      have hmem := his.mem_operands hi hname
      exact hx name (List.mem_filterMap.2 ⟨_, hmem, rfl⟩)

/-! ### The second pass -/

theorem Layout.resolve_recode {operand : Operand} (h : c.IsFaithful names) (hl : l.UsesOnly names)
    (hoperand : ∀ name, operand = .symbol name → name ∈ names) :
    (l.recode c).resolve (c.line line) (operand.recode c) =
      mapBoth (Fault.recode c) id (l.resolve line operand) := by
  cases operand with
  | value v => rfl
  | symbol name =>
    have hname := hoperand name rfl
    have hlookup : (l.recode c).lookup? (c.name name) = l.lookup? name := by
      have hlabels := lookup_recodeSymbols h hname hl.labels
      have hdeclared := lookup_recodeSymbols h hname hl.declared
      rw [lookup?, lookup?, ← hlabels, ← hdeclared]
      rfl
    simp only [Operand.recode, resolve, hlookup]
    cases l.lookup? name <;> rfl

theorem Layout.word_recode {i : Nat} {d : Draft} (h : c.IsFaithful names) (hl : l.UsesOnly names)
    (hd : ∀ name, .symbol name ∈ d.operands → name ∈ names) :
    (l.recode c).word i (d.recode c) = mapBoth (Fault.recode c) id (l.word i d) := by
  have hresolve : ∀ operand ∈ d.operands, (l.recode c).resolve (d.recode c).line
      (operand.recode c) = mapBoth (Fault.recode c) id (l.resolve d.line operand) :=
    fun operand hmem => resolve_recode h hl fun name hname => hd name (hname ▸ hmem)
  have hargs := mapM_mapBoth hresolve
  rw [List.map_id_fun] at hargs
  rw [word, word]
  exact (congrArg (· >>= _) hargs).trans (mapBoth_bind fun args _ => rfl)

theorem Layout.image_recode (h : c.IsFaithful names) (hl : l.UsesOnly names) :
    (l.recode c).image = mapBoth (Fault.recode c) id l.image := by
  have hword : ∀ p ∈ l.code.drafts.zipIdx, (l.recode c).word p.2 (p.1.recode c) =
      mapBoth (Fault.recode c) id (l.word p.2 p.1) :=
    fun p hp => word_recode h hl (hl.operands p.1 (List.fst_mem_of_mem_zipIdx hp))
  have hcode := mapM_mapBoth (k := fun p : Draft × Nat => (p.1.recode c, p.2))
    (q := fun p : Draft × Nat => (l.recode c).word p.2 p.1) hword
  have hdrafts : (l.code.drafts.map (Draft.recode c)).zipIdx =
      l.code.drafts.zipIdx.map fun p => (p.1.recode c, p.2) := List.zipIdx_map ..
  rw [List.map_id_fun, ← hdrafts] at hcode
  rw [image, image]
  exact (congrArg (· >>= _) hcode).trans (mapBoth_bind fun code _ => rfl)

/-! ### Whole sources -/

def namesOf (cs : List Clause) : List (List Char) := cs.flatMap fun x => x.reading.names

theorem assemble_recode {cs : List Clause} (h : c.IsFaithful (namesOf cs)) :
    assemble (cs.map (Clause.recode c)) = (assemble cs).mapError (Fault.recode c) := by
  have hnames : ∀ x ∈ cs, ∀ name ∈ x.reading.names, name ∈ namesOf cs :=
    fun x hx name hname => List.mem_flatMap.2 ⟨x, hx, hname⟩
  have hstart : Layout.start.UsesOnly (namesOf cs) := ⟨nofun, nofun, nofun⟩
  have hkeep : ∀ x ∈ cs, ∀ l l', Layout.UsesOnly l (namesOf cs) → l.add x = .ok l' →
      l'.UsesOnly (namesOf cs) := fun x hx l l' hl => hl.add (hnames x hx)
  have hlayout : (cs.map (Clause.recode c)).foldlM Layout.add Layout.start =
      mapBoth (Fault.recode c) (Layout.recode c) (cs.foldlM Layout.add Layout.start) :=
    foldlM_mapBoth (fun x hx l hl => Layout.add_recode h (hnames x hx) hl) hkeep hstart
  have hkept (l : Layout) (hl : cs.foldlM Layout.add Layout.start = .ok l) :
      l.UsesOnly (namesOf cs) :=
    foldlM_keeps_of_mem (I := fun l => l.UsesOnly (namesOf cs)) hkeep hstart hl
  have hmap (y : Except Fault Image) :
      mapBoth (Fault.recode c) id y = y.mapError (Fault.recode c) := by
    cases y <;> rfl
  rw [assemble, assemble, hlayout, ← hmap]
  exact mapBoth_bind fun l hl => Layout.image_recode h (hkept l hl)

theorem map_recode_clausesFrom {place : Option Section} {raw : List Char} :
    (clausesFrom line place [raw]).map (Clause.recode c) =
      (((said? place raw).map (Reading.recode c)).map (Clause.mk (c.line line))).toList := by
  rw [clausesFrom_singleton]
  cases said? place raw <;> rfl

/-! ### Other numbers only -/

def Recoding.ofLines (f : Nat → Nat) : Recoding := { line := f }

variable {f : Nat → Nat}

theorem isFaithful_ofLines : (Recoding.ofLines f).IsFaithful names :=
  ⟨fun _ _ _ _ h => h, fun _ => rfl⟩

theorem Operand.recode_ofLines (operand : Operand) : operand.recode (.ofLines f) = operand := by
  cases operand <;> rfl

theorem Reading.recode_ofLines (r : Reading) : r.recode (.ofLines f) = r := by
  cases r with
  | outside => rfl
  | declaration d => cases d <;> rfl
  | code line =>
    cases line with
    | label name => rfl
    | instruction mnemonic os =>
      have hos : os.map (Operand.recode (.ofLines f)) = os :=
        (List.map_congr_left fun operand _ => operand.recode_ofLines).trans (List.map_id os)
      rw [recode, CodeLine.recode, hos]
      rfl

theorem Fault.recode_ofLines (fault : Fault) :
    fault.recode (.ofLines f) = ⟨f fault.line, fault.cause⟩ := by
  obtain ⟨line, cause⟩ := fault
  cases cause <;> rfl

end TickMachine.Assembly
