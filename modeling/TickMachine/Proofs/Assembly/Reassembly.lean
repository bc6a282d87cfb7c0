import TickMachine.Proofs.Assembly.Printed
import TickMachine.Proofs.Assembly.Shape

/-! Printed code is translated back into itself. Each printed word is one statement, which is laid
out as one instruction with its arguments as values, so that no name is left to be replaced. -/

namespace TickMachine.Assembly

open Text Word

variable {w : Word} {ws : List Word} {opcode : Opcode} {os : List Operand} {line : Nat}
  {text : List Char} {c : Char}

def printedWords (w : Word) : List (List Char) :=
  w.opcode.mnemonic.toList ::
    withCommas ((operandTexts w.opcode.signature w.args).map String.toList)

theorem toList_assembly (w : Word) : w.assembly.toList = [' '].intercalate (printedWords w) := by
  rw [Word.assembly, printedWords]
  cases h : operandTexts w.opcode.signature w.args with
  | nil =>
    rw [List.map_nil, withCommas, List.intercalate_singleton]
  | cons t ts =>
    have hne : withCommas ((t :: ts).map String.toList) ≠ [] :=
      withCommas_ne_nil (List.cons_ne_nil _ _)
    rw [List.intercalate_cons_of_ne_nil hne, intercalate_withCommas, String.toList_append,
      String.toList_append, String.toList_intercalate]
    rfl

theorem isPlainText_of_mem (h : text ∈ (operandTexts w.opcode.signature w.args).map String.toList) :
    IsPlainText text := by
  rcases List.mem_map.1 h with ⟨t, ht, rfl⟩
  exact operandTexts_isPlainText t ht

theorem mem_printedWords (h : text ∈ printedWords w) (hc : c ∈ text) : isPlain c ∨ c = ',' := by
  rcases List.mem_cons.1 h with h | h
  · rw [h] at hc
    exact .inl ((mnemonic_isPlainText w.opcode).2 c hc)
  · rcases mem_withCommas h with ⟨t, ht, h | h⟩
    · rw [h] at hc
      exact .inl ((isPlainText_of_mem ht).2 c hc)
    · rw [h] at hc
      rcases List.mem_append.1 hc with hc | hc
      · exact .inl ((isPlainText_of_mem ht).2 c hc)
      · exact .inr (List.mem_singleton.1 hc)

theorem printedWords_isWord : ∀ text ∈ printedWords w, IsWord text := by
  intro text ht
  rcases List.mem_cons.1 ht with h | h
  · rw [h]
    exact (mnemonic_isPlainText w.opcode).isWord
  · rcases mem_withCommas h with ⟨t, ht, h | h⟩
    · rw [h]
      exact (isPlainText_of_mem ht).isWord
    · have hword := (isPlainText_of_mem ht).isWord
      have hcomma : ∀ c ∈ [','], isBlank c = false := List.forall_mem_singleton.2 rfl
      rw [h]
      exact ⟨List.append_ne_nil_of_left_ne_nil hword.1 _,
        List.forall_mem_append.2 ⟨hword.2, hcomma⟩⟩

theorem mem_assembly (h : c ∈ w.assembly.toList) : isPlain c ∨ c = ',' ∨ c = ' ' := by
  rw [toList_assembly] at h
  rcases mem_intercalate h with h | ⟨text, ht, hc⟩
  · exact .inr (.inr (List.mem_singleton.1 h))
  · rcases mem_printedWords ht hc with h | h
    · exact .inl h
    · exact .inr (.inl h)

theorem toNat_lt_of_mem_assembly (h : c ∈ w.assembly.toList) : c.toNat < 128 := by
  have hmnemonic : w.opcode.mnemonic.toList.all (·.toNat < 128) := by cases w.opcode <;> rfl
  rw [toList_assembly] at h
  rcases mem_intercalate h with h | ⟨text, ht, hc⟩
  · rw [List.mem_singleton.1 h]
    decide
  rcases List.mem_cons.1 ht with rfl | ht
  · exact of_decide_eq_true (List.all_eq_true.1 hmnemonic c hc)
  obtain ⟨t, ht, htext⟩ := mem_withCommas ht
  obtain ⟨operand, hoperand, rfl⟩ := List.mem_map.1 ht
  have hchars := operandTexts_toNat_lt operand hoperand
  rcases htext with rfl | rfl
  · exact hchars c hc
  · rcases List.mem_append.1 hc with hc | hc
    · exact hchars c hc
    · rw [List.mem_singleton.1 hc]
      decide

theorem instruction?_mnemonic (h : opcode.isData = false) :
    instruction? opcode.mnemonic.toList = some opcode := by
  cases opcode <;> first | rfl | cases h

theorem expand_mnemonic (h : opcode.isData = false)
    (hlen : os.length = opcode.signature.length) :
    expand line opcode.mnemonic.toList os = .ok [⟨line, opcode, os⟩] := by
  have hsingle : single line opcode os = .ok [⟨line, opcode, os⟩] := if_pos hlen
  have hinstr := instruction?_mnemonic h
  by_cases hop : opcode = .linear
  · subst hop
    match os, hlen with
    | [register, factor, source], _ => rfl
  · have hlower : ∀ name ∈ [['i', 'n', 'p', 'u', 't'], ['o', 'u', 't', 'p', 'u', 't'],
        ['l', 'i', 'n', 'e', 'a', 'r']], opcode.mnemonic.toList.map Char.toLower ≠ name := by
      clear hlen hsingle hinstr
      revert h hop
      cases opcode <;> decide
    simp only [List.forall_mem_cons] at hlower
    rcases hlower with ⟨hin, hout, hlin, -⟩
    simp only [expand]
    rw [if_neg hin, if_neg hout, if_neg hlin, hinstr]
    exact hsingle

theorem assembly_eq_cons (w : Word) : ∃ c rest, w.assembly.toList = c :: rest ∧ c ≠ '.' := by
  have hmnemonic : ∃ c rest, w.opcode.mnemonic.toList = c :: rest ∧ c ≠ '.' := by
    cases w.opcode <;> exact ⟨_, _, rfl, by decide⟩
  rcases hmnemonic with ⟨c, rest, hcons, hdot⟩
  rw [toList_assembly, printedWords, hcons, List.intercalate_cons_cons_left]
  exact ⟨c, _, rfl, hdot⟩

theorem content_assembly (w : Word) : content w.assembly.toList = w.assembly.toList := by
  have hcomment : ∀ text ∈ printedWords w, ';' ∉ text := by
    intro text ht hc
    have hchar := mem_printedWords ht hc
    revert hchar
    decide
  rw [toList_assembly]
  exact content_intercalate (List.cons_ne_nil _ _) printedWords_isWord hcomment

theorem directive?_assembly (w : Word) : directive? w.assembly.toList = none := by
  rcases assembly_eq_cons w with ⟨c, rest, hcons, hdot⟩
  have hbeq : ('.' == c) = false := beq_false_of_ne (Ne.symm hdot)
  rw [hcons, directive?]
  simp only [List.isPrefixOf, hbeq, Bool.false_and]
  rfl

theorem read_assembly : CodeLine.read w.assembly.toList =
    .instruction w.opcode.mnemonic.toList (w.args.map .value) := by
  have hcolon : w.assembly.toList.getLast? ≠ some ':' := by
    intro h
    have hmem := mem_assembly (List.mem_of_getLast? h)
    revert hmem
    decide
  have htexts : ∀ text ∈ (operandTexts w.opcode.signature w.args).map String.toList,
      IsPlainText text := fun text => isPlainText_of_mem
  rw [CodeLine.read, if_neg hcolon, toList_assembly, words_intercalate printedWords_isWord]
  show CodeLine.instruction _ (operands (withCommas _)) = _
  rw [operands_withCommas htexts, List.map_map]
  exact congrArg _ map_read_operandTexts

def draftsFrom (line : Nat) : List Word → List Draft
  | [] => []
  | w :: ws => ⟨line, w.opcode, w.args.map .value⟩ :: draftsFrom (line + 1) ws

theorem place_assembly {l : Layout} (h : w.IsShaped) :
    l.place ⟨line, some .code, w.assembly.toList⟩ = .ok ⟨l.data,
      ⟨l.code.drafts ++ [⟨line, w.opcode, w.args.map .value⟩], l.code.labels⟩⟩ := by
  have hlen : (w.args.map Operand.value).length = w.opcode.signature.length := by
    rw [List.length_map]
    exact h.2
  have hexpand : expand line w.opcode.mnemonic.toList (w.args.map .value) =
      .ok [⟨line, w.opcode, w.args.map .value⟩] := expand_mnemonic h.1 hlen
  simp only [Layout.place, CodeLayout.place, read_assembly, hexpand]
  rfl

theorem statementsFrom_assembly {rest : List (List Char)} :
    statementsFrom line (some .code) (w.assembly.toList :: rest) =
      ⟨line, some .code, w.assembly.toList⟩ :: statementsFrom (line + 1) (some .code) rest := by
  rcases assembly_eq_cons w with ⟨c, text, hcons, -⟩
  have hne : w.assembly.toList ≠ [] := hcons ▸ List.cons_ne_nil _ _
  exact statementsFrom_cons (content_assembly w) hne (directive?_assembly w)

theorem layout_assembly {l : Layout} {rest : List (List Char)} (h : ∀ w ∈ ws, w.IsShaped)
    (hrest : ∀ line, statementsFrom line (some .code) rest = []) :
    (statementsFrom line (some .code) (ws.map (·.assembly.toList) ++ rest)).foldlM Layout.place l =
      .ok ⟨l.data, ⟨l.code.drafts ++ draftsFrom line ws, l.code.labels⟩⟩ := by
  induction ws generalizing line l with
  | nil =>
    rw [List.map_nil, List.nil_append, hrest, draftsFrom, List.append_nil]
    rfl
  | cons w ws ih =>
    have hw := h w (List.mem_cons_self ..)
    have hws := fun v hv => h v (List.mem_cons_of_mem _ hv)
    rw [List.map_cons, List.cons_append, statementsFrom_assembly, List.foldlM_cons,
      place_assembly hw]
    show List.foldlM Layout.place _ _ = _
    rw [ih hws, draftsFrom, List.append_assoc, List.singleton_append]

theorem word_value {l : Layout} {index : Nat} {args : List Int64} :
    l.word index ⟨line, opcode, args.map .value⟩ = .ok ⟨UInt64.ofNat index, opcode, args⟩ := by
  have hargs : (args.map Operand.value).mapM (l.resolve line) = .ok args := by
    rw [mapM_eq_ok_iff, List.map_map]
    rfl
  rw [Layout.word, hargs]
  rfl

theorem words_draftsFrom (l : Layout) (line index : Nat) (ws : List Word) :
    ((draftsFrom line ws).zipIdx index).mapM (fun (d, i) => l.word i d) =
      .ok (ws.mapIdx fun i w => ⟨UInt64.ofNat (index + i), w.opcode, w.args⟩) := by
  rw [mapM_eq_ok_iff]
  induction ws generalizing line index with
  | nil => rfl
  | cons w ws ih =>
    have hindex (i : Nat) : index + 1 + i = index + (i + 1) := by omega
    rw [draftsFrom, List.zipIdx_cons, List.map_cons, ih, List.mapIdx_cons, List.map_cons]
    simp only [word_value, hindex, Nat.add_zero]

theorem image_of_drafts {l : Layout} (h : l.code.drafts = draftsFrom line ws) :
    l.image = .ok ⟨l.data.cells, ws.mapIdx fun i w => ⟨UInt64.ofNat i, w.opcode, w.args⟩⟩ := by
  have hwords := words_draftsFrom l line 0 ws
  simp only [Nat.zero_add] at hwords
  rw [Layout.image, h, hwords]
  rfl

theorem translate_of_lines {source : List Char} {rest : List (List Char)}
    (h : ∀ w ∈ ws, w.IsShaped) (hrest : ∀ line, statementsFrom line (some .code) rest = [])
    (hlines : lines source = ".code".toList :: (ws.map (·.assembly.toList) ++ rest)) :
    translate source = .ok ⟨[⟨0, .number, [portValue]⟩, ⟨1, .number, [portValue]⟩],
      ws.mapIdx fun i w => ⟨UInt64.ofNat i, w.opcode, w.args⟩⟩ := by
  have hstatements : statements source =
      statementsFrom 2 (some .code) (ws.map (·.assembly.toList) ++ rest) := by
    rw [statements, hlines]
    rfl
  rw [translate, hstatements, layout, layout_assembly h hrest]
  exact image_of_drafts (List.nil_append _)

theorem newline_not_mem : ∀ text ∈ ".code".toList :: ws.map (·.assembly.toList), '\n' ∉ text := by
  rw [List.forall_mem_cons]
  refine ⟨by decide, fun text ht => ?_⟩
  rcases List.mem_map.1 ht with ⟨w, -, rfl⟩
  intro hmem
  have hchar := mem_assembly hmem
  revert hchar
  decide

/-- Printed code under a section directive is translated into the words that were printed, each at
its place, and into no data but the cells of the ports. The last line may have an end or not. -/
theorem translate_assembly (h : ∀ w ∈ ws, w.IsShaped) :
    ∀ source ∈ [".code\n" ++ String.join (ws.map fun w => w.assembly ++ "\n"),
        "\n".intercalate (".code" :: ws.map Word.assembly)],
      translate source.toList = .ok ⟨[⟨0, .number, [portValue]⟩, ⟨1, .number, [portValue]⟩],
        ws.mapIdx fun i w => ⟨UInt64.ofNat i, w.opcode, w.args⟩⟩ := by
  have hends : (".code\n" ++ String.join (ws.map fun w => w.assembly ++ "\n")).toList =
      (".code".toList :: ws.map (·.assembly.toList)).flatMap (· ++ ['\n']) := by
    rw [String.toList_append, String.toList_join, List.flatMap_cons, List.flatMap_map,
      List.flatMap_map]
    simp only [String.toList_append]
    rfl
  have hbetween : ("\n".intercalate (".code" :: ws.map Word.assembly)).toList =
      ['\n'].intercalate (".code".toList :: ws.map (·.assembly.toList)) := by
    rw [String.toList_intercalate, List.map_cons, List.map_map]
    rfl
  have hnewline := @newline_not_mem ws
  have hnil : ∀ line, statementsFrom line (some .code) [] = [] := fun _ => rfl
  have hblank : ∀ line, statementsFrom line (some .code) [[]] = [] := fun _ => rfl
  refine List.forall_mem_cons.2 ⟨?_, List.forall_mem_singleton.2 ?_⟩
  · have hends' : ∀ text ∈ (".code".toList :: ws.map (·.assembly.toList)) ++ [[]], '\n' ∉ text :=
      List.forall_mem_append.2 ⟨hnewline, List.forall_mem_singleton.2 List.not_mem_nil⟩
    rw [hends, flatMap_eq_intercalate]
    exact translate_of_lines h hblank (lines_intercalate (List.cons_ne_nil _ _) hends')
  · rw [hbetween]
    refine translate_of_lines h hnil ?_
    rw [List.append_nil]
    exact lines_intercalate (List.cons_ne_nil _ _) hnewline

theorem translate_unnamed_registers :
    translate ".code\nlinear -1, 5, 9223372036854775807\nload_v r3, -7\nhlt\n".toList =
      .ok ⟨[⟨0, .number, [portValue]⟩, ⟨1, .number, [portValue]⟩],
        [⟨0, .linear, [-1, 5, 9223372036854775807]⟩, ⟨1, .loadV, [2, -7]⟩, ⟨2, .hlt, []⟩]⟩ :=
  @translate_assembly [⟨9, .linear, [-1, 5, 9223372036854775807]⟩, ⟨9, .loadV, [2, -7]⟩,
    ⟨9, .hlt, []⟩] (by decide) _ (List.mem_cons_self ..)

end TickMachine.Assembly
