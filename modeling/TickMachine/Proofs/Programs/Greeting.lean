import TickMachine.Proofs.Simulation.Printing
import TickMachine.Proofs.Text.Joined

/-! The program that prints the string it is written with. The string goes between the quotes of a
data statement and so into memory, with a terminator behind it; a pointer walks over its characters
until it finds the terminator. -/

namespace TickMachine.Greeting

open Assembly DataPath Machine Simulation Text

def source (text : List Char) : List Char :=
  ("\n".intercalate ["", "        .data", "            STRING msg \"" ++ String.ofList text ++ "\"",
    "        .code", "            mov r2 msg", "        loop:", "            load_r r1 r2",
    "            jz_r end r1", "            output r1", "            inc r2",
    "            jmp loop", "        end:", "            hlt", "    "]).toList

/-- A string that the quotes and the line around it leave as it is. -/
structure IsPrintable (text : List Char) : Prop where
  comment : ';' ∉ text
  newline : '\n' ∉ text
  zero : '\x00' ∉ text
  first : text.head? ≠ some '"'
  last : text.getLast? ≠ some '"'

def cells (text : List Char) : List Word :=
  Layout.start.data.cells ++ cellsFrom 2 .string (text.map codeOf ++ [0])

def code : List Word :=
  [⟨0, .mov, [1, 2]⟩, ⟨1, .loadR, [0, 1]⟩, ⟨2, .jzR, [6, 0]⟩, ⟨3, .storeV, [1, 0]⟩,
    ⟨4, .inc, [1]⟩, ⟨5, .jmp, [1]⟩, ⟨6, .hlt, []⟩]

def image (text : List Char) : Image := ⟨cells text, code⟩

variable {text : List Char}

/-! ### Translation -/

def quoted (text : List Char) : List Char := '"' :: text ++ ['"']

def declaration (text : List Char) : List Char :=
  ['S', 'T', 'R', 'I', 'N', 'G', ' ', 'm', 's', 'g', ' '] ++ quoted text

def dataLine (text : List Char) : List Char := List.replicate 12 ' ' ++ declaration text

def codeLines : List (List Char) :=
  ["        .code", "            mov r2 msg", "        loop:", "            load_r r1 r2",
    "            jz_r end r1", "            output r1", "            inc r2",
    "            jmp loop", "        end:", "            hlt", "    "].map String.toList

theorem getLast?_quoted (text : List Char) : (quoted text).getLast? = some '"' :=
  List.getLast?_concat

theorem trim_quoted (text : List Char) : trim (quoted text) = quoted text := by
  have hquote (c : Char) (hc : some '"' = some c) : isBlank c = false := by
    cases hc
    rfl
  apply trimWhile_eq_self
  · exact fun c hc => hquote c hc
  · exact fun c hc => hquote c ((getLast?_quoted text).symm.trans hc)

theorem trimWhile_quoted (h : IsPrintable text) :
    trimWhile (· == '"') (quoted text) = text := by
  have hstart : trimStartWhile (· == '"') (quoted text) =
      (text ++ ['"']).dropWhile (· == '"') := rfl
  have hend : trimEndWhile (· == '"') (text ++ ['"']) = trimEndWhile (· == '"') text := by
    rw [trimEndWhile, List.reverse_append]
    rfl
  rw [trimWhile, hstart]
  cases text with
  | nil => rfl
  | cons c text =>
    have hfirst : (c == '"') = false := beq_false_of_ne fun hc => h.first (hc ▸ rfl)
    rw [List.cons_append, List.dropWhile_cons_of_neg (by simp [hfirst]), ← List.cons_append, hend]
    apply trimEndWhile_eq_self
    intro x hx
    exact beq_false_of_ne fun hc => h.last (hc ▸ hx)

theorem not_mem_dataLine {c : Char} (hc : c ∉ dataLine []) (h : c ∉ text) :
    c ∉ dataLine text := by
  simp only [dataLine, declaration, quoted, List.mem_append, List.mem_cons, not_or] at hc ⊢
  exact ⟨hc.1, hc.2.1, ⟨hc.2.2.1.1, h⟩, hc.2.2.2⟩

theorem content_dataLine (h : IsPrintable text) : content (dataLine text) = declaration text := by
  have hsemicolon : ';' ∉ dataLine text := not_mem_dataLine (by decide) h.comment
  have hcomment : (dataLine text).takeWhile (· != ';') = dataLine text :=
    List.takeWhile_eq_self_iff.2 fun c hc => bne_iff_ne.2 fun heq => hsemicolon (heq ▸ hc)
  have hstart : trimStartWhile isBlank (dataLine text) = declaration text := rfl
  rw [content, hcomment, trim, trimWhile, hstart]
  apply trimEndWhile_eq_self
  intro c hc
  rw [declaration, List.getLast?_append, getLast?_quoted] at hc
  cases hc
  rfl

theorem read?_declaration (text : List Char) : Declaration.read? (declaration text) =
    some ⟨"STRING".toList, "msg".toList, quoted text⟩ := by
  have hvalue : Declaration.read? (declaration text) =
      if trim (quoted text) = [] then none
      else some ⟨"STRING".toList, "msg".toList, trim (quoted text)⟩ := rfl
  rw [hvalue, trim_quoted]
  rfl

theorem declare_declaration (h : IsPrintable text) :
    Layout.start.data.declare (declaration text) = .ok ⟨cells text, [("msg".toList, 2)]⟩ := by
  have hvalues : cellValues .string (quoted text) = .ok (text.map codeOf ++ [0]) := by
    have htext := trimWhile_quoted h
    rw [cellValues, htext]
    rfl
  have hdeclare : Layout.start.data.declare (declaration text) =
      cellValues .string (quoted text) >>= fun values =>
        .ok ⟨Layout.start.data.cells ++ cellsFrom 2 .string values, [("msg".toList, 2)]⟩ := by
    rw [DataLayout.declare, read?_declaration]
    rfl
  rw [hdeclare, hvalues]
  rfl

theorem lines_source (h : IsPrintable text) :
    lines (source text) = [] :: "        .data".toList :: dataLine text :: codeLines := by
  have htexts : source text =
      ['\n'].intercalate ([] :: "        .data".toList :: dataLine text :: codeLines) := by
    rw [source, String.toList_intercalate]
    simp only [List.map_cons, String.toList_append, String.toList_ofList]
    rfl
  have hdata : '\n' ∉ dataLine text := not_mem_dataLine (by decide) h.newline
  have hcode : ∀ line ∈ codeLines, '\n' ∉ line := by decide
  rw [htexts]
  refine lines_intercalate (List.cons_ne_nil _ _) ?_
  exact List.forall_mem_cons.2 ⟨List.not_mem_nil, List.forall_mem_cons.2 ⟨by decide,
    List.forall_mem_cons.2 ⟨hdata, hcode⟩⟩⟩

theorem statements_source (h : IsPrintable text) : statements (source text) =
    ⟨3, some .data, declaration text⟩ :: statementsFrom 4 (some .data) codeLines := by
  have hopened : statements (source text) =
      statementsFrom 3 (some .data) (dataLine text :: codeLines) := by
    rw [statements, lines_source h]
    rfl
  rw [hopened]
  exact statementsFrom_cons (content_dataLine h) (List.cons_ne_nil _ _) rfl

theorem layout_code (cells : List Word) :
    ((statementsFrom 4 (some .data) codeLines).foldlM Layout.place
      ⟨⟨cells, [("msg".toList, 2)]⟩, ⟨[], []⟩⟩ >>= Layout.image) = .ok ⟨cells, code⟩ := by
  rfl

theorem translate_source (h : IsPrintable text) :
    Assembly.translate (source text) = .ok (image text) := by
  have hplace : Layout.start.place ⟨3, some .data, declaration text⟩ =
      .ok ⟨⟨cells text, [("msg".toList, 2)]⟩, ⟨[], []⟩⟩ := by
    rw [Layout.place]
    dsimp only
    rw [declare_declaration h]
    rfl
  have hstep (l : Layout) (f : Layout → Except Assembly.Fault Layout) :
      Except.ok l >>= f = f l := rfl
  rw [Assembly.translate, layout, statements_source h, List.foldlM_cons, hplace, hstep]
  exact layout_code (cells text)

/-! ### The run -/

def Lies (cells : Array Word) (address : Nat) (values : List Int64) : Prop :=
  ∀ i v, values[i]? = some v →
    (fetch? cells (Int64.ofNat (address + i))).map Word.value = some v

variable {address : Nat} {value : Int64} {values : List Int64}

theorem Lies.head {cells : Array Word} (h : Lies cells address (value :: values)) :
    (fetch? cells (Int64.ofNat address)).map Word.value = some value := h 0 value rfl

theorem Lies.tail {cells : Array Word} (h : Lies cells address (value :: values)) :
    Lies cells (address + 1) values := by
  intro i v hv
  rw [Nat.add_right_comm]
  exact h (i + 1) v hv

theorem lies_cellsFrom (before : List Word) {kind : Opcode}
    (hroom : before.length + values.length ≤ 2 ^ 63) :
    Lies (before ++ cellsFrom before.length kind values).toArray before.length values := by
  intro i v hv
  obtain ⟨hi, -⟩ := List.getElem?_eq_some_iff.1 hv
  have hplace : place? (Int64.ofNat (before.length + i))
      (before ++ cellsFrom before.length kind values).toArray.size =
        some (before.length + i) := by
    rw [place?_eq_some_iff]
    refine ⟨Int64.toInt_ofNat_of_lt (by omega), ?_⟩
    simp [cellsFrom, hi]
  have hcell : (before ++ cellsFrom before.length kind values)[before.length + i]? =
      some ⟨UInt64.ofNat (before.length + i), kind, [v]⟩ := by
    rw [List.getElem?_append_right (Nat.le_add_right _ _), Nat.add_sub_cancel_left, cellsFrom,
      List.getElem?_mapIdx, hv]
    rfl
  rw [fetch?_of_place? hplace, List.getElem?_toArray, hcell]
  rfl

structure AtLoop (past pending : List Char) (m : Machine) : Prop where
  program : m.program = code.toArray
  counter : m.counter = 1
  registers : 2 ≤ m.path.registers.size
  pointer : m.path.register? 1 = some (Int64.ofNat (2 + past.length))
  string : Lies m.path.cells (2 + past.length) (pending.map codeOf ++ [0])
  room : 2 + past.length + pending.length < 2 ^ 63
  output : m.path.output.toList = past.map codeOf

variable {past pending rest : List Char} {c : Char} {m : Machine}

theorem exists_atLoop {registers : Nat} (hr : 2 ≤ registers) (hroom : 2 + text.length < 2 ^ 63)
    (input : List Char) : ∃ m, Passes (.load (image text) registers input) 1 1 m ∧
      AtLoop [] text m := by
  have hplace : place? 1 (Array.replicate registers (0 : Int64)).size = some 1 := by
    rw [place?_eq_some_iff, Array.size_replicate]
    exact ⟨rfl, hr⟩
  obtain ⟨d, hassign⟩ : ∃ d, Assigns 1 2 (.start (cells text).toArray registers input) d :=
    ⟨_, 1, hplace, rfl⟩
  have hmov : (⟨0, .mov, [1, 2]⟩ : Word).Performs
      (Machine.load (image text) registers input).path d := ⟨1, 2, rfl, rfl, hassign⟩
  have hlies : Lies (cells text).toArray 2 (text.map codeOf ++ [0]) := by
    have hlength : (text.map codeOf ++ [0]).length = text.length + 1 := by simp
    have hstart : Layout.start.data.cells.length = 2 := rfl
    exact lies_cellsFrom Layout.start.data.cells (by omega)
  refine ⟨_, (Passes.refl _).performs hmov rfl rfl, rfl, rfl, ?_, hassign.register?, ?_, ?_, ?_⟩
  · have hsize : d.registers.size = registers := hassign.size.trans Array.size_replicate
    exact hsize.symm ▸ hr
  · exact hassign.cells.symm ▸ hlies
  · exact hroom
  · exact congrArg Array.toList hassign.output

theorem AtLoop.load (h : AtLoop past pending m)
    (hv : pending.map codeOf ++ [0] = value :: values) :
    ∃ m', Passes m 2 4 m' ∧ m'.program = code.toArray ∧
      m'.counter = (if value = 0 then 6 else 3) ∧ m'.path.registers.size = m.path.registers.size ∧
      m'.path.register? 0 = some value ∧ m'.path.register? 1 = m.path.register? 1 ∧
      m'.path.cells = m.path.cells ∧ m'.path.output = m.path.output := by
  obtain ⟨program, counter, d, tick⟩ := m
  obtain ⟨rfl, rfl, hsize, hpointer, hstring, -, -⟩ := h
  rw [hv] at hstring
  have hplace : place? 0 d.registers.size = some 0 :=
    place?_eq_some_iff.2 ⟨rfl, Nat.zero_lt_of_lt hsize⟩
  obtain ⟨d₁, hassign⟩ : ∃ d₁,
      Assigns 0 value { d with address := Int64.ofNat (2 + past.length) } d₁ := ⟨_, 0, hplace, rfl⟩
  have hload : (⟨1, .loadR, [0, 1]⟩ : Word).Performs d d₁ :=
    ⟨0, 1, _, value, rfl, rfl, hpointer, hstring.head, hassign⟩
  have hjump : (⟨2, .jzR, [6, 0]⟩ : Word).Directs ⟨code.toArray, 2, d₁, tick + 2⟩
      ⟨code.toArray, if value = 0 then 6 else 3, { d₁ with isZero := value = 0 },
        tick + 2 + 2⟩ := ⟨6, 6, 0, value, rfl, rfl, rfl, hassign.register?, rfl⟩
  have hrun := ((Passes.refl ⟨code.toArray, 1, d, tick⟩).performs hload rfl rfl).directs hjump rfl
  exact ⟨_, hrun, rfl, rfl, hassign.size, hassign.register?,
    hassign.register?_of_ne (by decide), hassign.cells, hassign.output⟩

theorem AtLoop.round (hc : c ≠ '\x00') (h : AtLoop past (c :: rest) m) :
    ∃ m', Passes m 5 8 m' ∧ AtLoop (past ++ [c]) rest m' := by
  obtain ⟨m₁, hload, hprogram, hcounter, hsize, hvalue, hpointer, hcells, houtput⟩ := h.load rfl
  rw [if_neg fun hzero => hc (codeOf_eq_zero_iff.1 hzero)] at hcounter
  rw [h.pointer] at hpointer
  obtain ⟨program, counter, d, tick⟩ := m₁
  obtain rfl : program = code.toArray := hprogram
  obtain rfl : counter = 3 := hcounter
  have hstore : (⟨3, .storeV, [1, 0]⟩ : Word).Performs d
      { d with address := 1, output := d.output.push (codeOf c) } :=
    ⟨1, 0, codeOf c, rfl, rfl, hvalue, rfl⟩
  have hroom := h.room
  rw [List.length_cons] at hroom
  have hnext : (Int64.ofNat (2 + (past ++ [c]).length)).toInt =
      (Int64.ofNat (2 + past.length)).toInt + 1 := by
    rw [List.length_append, List.length_singleton, Int64.toInt_ofNat_of_lt (by omega),
      Int64.toInt_ofNat_of_lt (by omega)]
    omega
  have hplace : place? 1 d.registers.size = some 1 :=
    place?_eq_some_iff.2 ⟨rfl, hsize.symm ▸ h.registers⟩
  obtain ⟨d₁, hassign⟩ : ∃ d₁, Assigns 1 (Int64.ofNat (2 + (past ++ [c]).length))
      (latchFlag { d with address := 1, output := d.output.push (codeOf c) }
        (Int64.ofNat (2 + (past ++ [c]).length))) d₁ := ⟨_, 1, hplace, rfl⟩
  have hinc : (⟨4, .inc, [1]⟩ : Word).Performs
      { d with address := 1, output := d.output.push (codeOf c) } d₁ :=
    ⟨1, _, _, rfl, hpointer, hnext, hassign⟩
  have hprint := (hload.performs hstore rfl rfl).performs hinc rfl rfl
  have hback := hprint.directs (w := ⟨5, .jmp, [1]⟩) ⟨1, 1, rfl, rfl, rfl⟩ rfl
  refine ⟨_, hback, rfl, rfl, ?_, hassign.register?, ?_, ?_, ?_⟩
  · exact (hassign.size.trans hsize).symm ▸ h.registers
  · rw [List.length_append]
    exact (hassign.cells.trans hcells).symm ▸ h.string.tail
  · rw [List.length_append, List.length_singleton]
    omega
  · exact hassign.output.symm ▸ toList_push_codeOf (houtput.symm ▸ h.output)

theorem AtLoop.rounds (htext : '\x00' ∉ text) (h : AtLoop past (text ++ rest) m) :
    ∃ m', Passes m (5 * text.length) (8 * text.length) m' ∧ AtLoop (past ++ text) rest m' :=
  Passes.rounds (fun _ _ _ _ hc => AtLoop.round fun hzero => htext (hzero ▸ hc)) h

/-- Wherever there are two registers and time enough, the program prints its string and halts,
whatever its input. -/
theorem greeting_runs (h : IsPrintable text) {registers : Nat} (hr : 2 ≤ registers)
    (limit debugLimit : UInt64) (input : List Char) (hlimit : 8 * text.length + 5 < limit.toNat) :
    ∃ r, runSource (source text) input ⟨registers, limit, debugLimit⟩ = .ok r ∧
      r.Records text .halted (5 * text.length + 4) (8 * text.length + 5) := by
  have hmax : limit.toNat < 2 ^ 64 := limit.toNat_lt
  have hroom : 2 + text.length < 2 ^ 63 := by omega
  obtain ⟨m₁, hmov, h₁⟩ := exists_atLoop hr hroom (terminated input)
  rw [← List.append_nil text] at h₁
  obtain ⟨m₂, hrounds, h₂⟩ := h₁.rounds h.zero
  obtain ⟨m₃, hload, hprogram, hcounter, -, -, -, -, houtput⟩ := h₂.load rfl
  have hend : m₃.current? = some ⟨6, .hlt, []⟩ := by
    rw [current?, hprogram, hcounter]
    rfl
  have hwritten : m₃.path.output.toList = text.map codeOf := by
    rw [houtput]
    exact h₂.output
  have hrun := (hmov.trans hrounds).trans hload
  have hcount : 1 + 5 * text.length + 2 = 5 * text.length + 3 := by omega
  have hticks : 1 + 8 * text.length + 4 = 8 * text.length + 5 := by omega
  rw [hcount, hticks] at hrun
  rw [runSource, translate_source h]
  exact exists_report_of_halt debugLimit (Nat.le_of_succ_le hr) hrun hlimit hend rfl hwritten

theorem greeting_runs_short :
    (∃ r, runSource (source ['a', '"', '\t', 'ω', 'b']) ['x'] ⟨2, 46, 0⟩ = .ok r ∧
      r.text = "a\"\t969b" ∧ r.instructions = 29 ∧ r.ticks.toNat = 45) ∧
    ∃ r, runSource (source []) [] ⟨3, 6, 0⟩ = .ok r ∧ r.text = "" ∧ r.instructions = 4 ∧
      r.ticks.toNat = 5 := by
  have hquote : IsPrintable ['a', '"', '\t', 'ω', 'b'] :=
    ⟨by decide, by decide, by decide, by decide, by decide⟩
  have hempty : IsPrintable [] := ⟨by decide, by decide, by decide, by decide, by decide⟩
  obtain ⟨r, hrun, h⟩ := greeting_runs hquote (Nat.le_refl 2) 46 0 ['x'] (by decide)
  obtain ⟨r', hrun', h'⟩ := greeting_runs hempty (Nat.le_succ 2) 6 0 [] (by decide)
  exact ⟨⟨r, hrun, h.shown.trans rfl, h.instructions, h.ticks⟩,
    r', hrun', h'.plain nofun, h'.instructions, h'.ticks⟩

end TickMachine.Greeting
