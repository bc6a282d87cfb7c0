import TickMachine.Proofs.Assembly.InstructionLines
import TickMachine.Proofs.Assembly.Reassembly
import TickMachine.Proofs.Assembly.Recoding

/-! The instructions that stand for others, and what they stand for: reading and writing the ports
are a load and a store with the address of the port, and a linear form is one instruction for each
of its terms. To write the one instead of the other changes nothing but line numbers. -/

namespace TickMachine.Assembly

open Text

def termWords (terms : List (List Char × List Char)) : List (List Char) :=
  terms.flatMap fun t => [t.1, t.2]

/-- The line has a mnemonic and operands for its words. Commas behind the operands do not count. -/
def Spells (raw mnemonic : List Char) (os : List (List Char)) : Prop :=
  ∃ texts, words (content raw) = mnemonic :: texts ∧ operandWords texts = os

/-- The instruction on the line `raw` stands for those on the lines of `block`. -/
inductive Abbreviates (raw : List Char) : List (List Char) → Prop
  | input {raw' mnemonic : List Char} {texts : List (List Char)}
    (h : IsInstruction raw mnemonic texts) (hmnemonic : mnemonic.map Char.toLower = "input".toList)
    (h' : words (content raw') = "load_v".toList :: texts ++ ["0".toList]) : Abbreviates raw [raw']
  | output {raw' mnemonic : List Char} {texts : List (List Char)}
    (h : IsInstruction raw mnemonic texts) (hmnemonic : mnemonic.map Char.toLower = "output".toList)
    (h' : words (content raw') = "store_v".toList :: "1".toList :: texts) : Abbreviates raw [raw']
  | linear {mnemonic register factor source first : List Char} {further : List (List Char)}
    {terms : List (List Char × List Char)}
    (h : Spells raw mnemonic (register :: factor :: source :: termWords terms))
    (hmnemonic : mnemonic.map Char.toLower = "linear".toList)
    (hcolon : ∀ word ∈ register :: factor :: source :: termWords terms, ':' ∉ word)
    (hfirst : Spells first "linear".toList [register, factor, source])
    (hfurther : List.Forall₂ (fun t raw' => Spells raw' "linear_cont".toList [register, t.1, t.2])
      terms further) : Abbreviates raw (first :: further)

/-- Each of `blocks` is a line of `raws`, or what the instruction on that line stands for. The
declarations in a section of data are no instructions. -/
inductive WrittenOut : Option Section → List (List Char) → List (List (List Char)) → Prop
  | nil {place : Option Section} : WrittenOut place [] []
  | keep {place : Option Section} {raws : List (List Char)} {blocks : List (List (List Char))}
    (raw : List Char) (h : WrittenOut (openAfter place raw) raws blocks) :
    WrittenOut place (raw :: raws) ([raw] :: blocks)
  | replace {place : Option Section} {raws block : List (List Char)}
    {blocks : List (List (List Char))} {raw : List Char} (hplace : place ≠ some .data)
    (hblock : Abbreviates raw block) (h : WrittenOut place raws blocks) :
    WrittenOut place (raw :: raws) (block :: blocks)

/-- The line that line `i` of the written out text comes from, both counted from 0. -/
def originOf : List (List (List Char)) → Nat → Nat
  | [], i => i
  | block :: blocks, i =>
    if i < block.length then 0 else originOf blocks (i - block.length) + 1

def expandAll (line : Nat) : List (List Char × List (List Char)) → Except Cause (List Draft)
  | [] => .ok []
  | (mnemonic, texts) :: parts => do
    return (← expand line mnemonic (operands texts)) ++ (← expandAll line parts)

def Layout.withDrafts (l : Layout) (ds : List Draft) : Layout :=
  ⟨l.data, ⟨l.code.drafts ++ ds, l.code.labels⟩⟩

def AreInstructions (raws : List (List Char)) (parts : List (List Char × List (List Char))) :
    Prop :=
  List.Forall₂ (fun raw p => IsInstruction raw p.1 p.2) raws parts

variable {raw mnemonic register : List Char} {texts os block raws : List (List Char)}
  {terms : List (List Char × List Char)} {blocks : List (List (List Char))} {line k : Nat}
  {place : Option Section} {f : Nat → Nat} {l : Layout} {ds : List Draft}
  {parts : List (List Char × List (List Char))}

/-! ### The lines as instructions -/

theorem not_mem_of_lower {name : String} {c : Char} (h : mnemonic.map Char.toLower = name.toList)
    (hc : c.toLower ∉ name.toList) : c ∉ mnemonic :=
  fun hmem => hc (h ▸ List.mem_map_of_mem hmem)

theorem directive?_of_lower {name : String} (h : mnemonic.map Char.toLower = name.toList)
    (hdot : '.' ∉ name.toList) : directive? mnemonic = none := by
  refine directive?_eq_none fun hhead => ?_
  exact not_mem_of_lower (c := '.') h hdot (List.mem_of_head? hhead)

theorem colon_not_mem (h : ∀ word ∈ operandWords texts, ':' ∉ word) :
    ∀ text ∈ texts, ':' ∉ text := by
  intro text htext hc
  obtain ⟨back, hback, hcommas⟩ := exists_trimEndWhile (· == ',') text
  rw [hback, List.mem_append] at hc
  obtain hc | hc := hc
  · refine h _ (List.mem_filter.2 ⟨List.mem_map_of_mem htext, ?_⟩) hc
    simpa using List.ne_nil_of_mem hc
  · exact absurd (hcommas _ hc) (by decide)

theorem Spells.exists_isInstruction {name : String} (h : Spells raw mnemonic os)
    (hmnemonic : mnemonic.map Char.toLower = name.toList)
    (hname : '.' ∉ name.toList ∧ ':' ∉ name.toList) (hcolon : ∀ word ∈ os, ':' ∉ word) :
    ∃ texts, IsInstruction raw mnemonic texts ∧ operandWords texts = os := by
  obtain ⟨texts, hwords, rfl⟩ := h
  have hplain : directive? mnemonic = none := directive?_of_lower hmnemonic hname.1
  have hfirst : ':' ∉ mnemonic := not_mem_of_lower hmnemonic hname.2
  have hall : ∀ word ∈ mnemonic :: texts, ':' ∉ word :=
    List.forall_mem_cons.2 ⟨hfirst, colon_not_mem hcolon⟩
  refine ⟨texts, isInstruction_of_words hwords hplain fun word hword hlast => ?_, rfl⟩
  exact hall word (List.mem_of_getLast? hword) (List.mem_of_getLast? hlast)

theorem isInstruction_loadV
    (h : words (content raw) = "load_v".toList :: texts ++ ["0".toList]) :
    IsInstruction raw "load_v".toList (texts ++ ["0".toList]) := by
  refine isInstruction_of_words h rfl fun word hword hlast => ?_
  rw [← List.cons_append, List.getLast?_concat] at hword
  obtain rfl := Option.some.inj hword
  cases hlast

theorem isInstruction_storeV {raw' : List Char} (h : IsInstruction raw mnemonic texts)
    (h' : words (content raw') = "store_v".toList :: "1".toList :: texts) :
    IsInstruction raw' "store_v".toList ("1".toList :: texts) := by
  refine isInstruction_of_words h' rfl fun word hword hlast => ?_
  cases texts with
  | nil =>
    obtain rfl := Option.some.inj hword
    cases hlast
  | cons text texts => exact h.last word hword hlast

/-! ### What the instructions expand to -/

theorem map_read_termWords (terms : List (List Char × List Char)) :
    (termWords terms).map Operand.read =
      termOperands (terms.map fun t => (Operand.read t.1, Operand.read t.2)) := by
  rw [termWords, termOperands, List.map_flatMap, List.flatMap_map]
  rfl

theorem expandAll_singleton :
    expandAll line [(mnemonic, texts)] = expand line mnemonic (operands texts) := by
  rw [expandAll]
  cases expand line mnemonic (operands texts) with
  | error cause => rfl
  | ok ds => exact congrArg Except.ok (List.append_nil ds)

theorem expand_linear {factor source : List Char}
    (hmnemonic : mnemonic.map Char.toLower = "linear".toList)
    (h : operandWords texts = register :: factor :: source :: termWords terms) :
    expand k mnemonic (operands texts) =
      .ok (⟨k, .linear, [register, factor, source].map Operand.read⟩ ::
        furtherTerms k (Operand.read register) ((termWords terms).map Operand.read)) := by
  have heven : ((termWords terms).map Operand.read).length % 2 = 0 := by
    rw [map_read_termWords, length_termOperands]
    omega
  have hlower : mnemonic.map Char.toLower = ['l', 'i', 'n', 'e', 'a', 'r'] := hmnemonic
  rw [expand, if_neg (by simp [hlower]), if_neg (by simp [hlower]), if_pos hlower, operands_eq, h]
  exact if_pos heven

theorem exists_further
    (hfurther : List.Forall₂ (fun t raw => Spells raw "linear_cont".toList [register, t.1, t.2])
      terms raws) (hregister : ':' ∉ register) (hterms : ∀ word ∈ termWords terms, ':' ∉ word) :
    ∃ parts, AreInstructions raws parts ∧ ∀ line, expandAll line parts =
      .ok (furtherTerms line (Operand.read register) ((termWords terms).map Operand.read)) := by
  induction hfurther with
  | nil => exact ⟨[], .nil, fun line => rfl⟩
  | @cons t raw terms raws ht _ ih =>
    obtain ⟨hfactor, hsource, hterms⟩ :
        ':' ∉ t.1 ∧ ':' ∉ t.2 ∧ ∀ word ∈ termWords terms, ':' ∉ word := by
      simpa [termWords] using hterms
    have hlower : "linear_cont".toList.map Char.toLower = "linear_cont".toList := rfl
    obtain ⟨texts, hraw, htexts⟩ := ht.exists_isInstruction hlower (by decide)
      (by simp [hregister, hfactor, hsource])
    obtain ⟨parts, hparts, hexpand⟩ := ih hterms
    refine ⟨("linear_cont".toList, texts) :: parts, .cons hraw hparts, fun line => ?_⟩
    have hhere : expand line "linear_cont".toList (operands texts) =
        .ok [⟨line, .linearCont, [register, t.1, t.2].map Operand.read⟩] := by
      rw [operands_eq, htexts]
      exact expand_mnemonic (show Opcode.linearCont.isData = false from rfl) rfl
    rw [expandAll, hhere, hexpand]
    rfl

theorem Abbreviates.exists_parts (h : Abbreviates raw block) : ∃ mnemonic texts parts,
    IsInstruction raw mnemonic texts ∧ AreInstructions block parts ∧ parts ≠ [] ∧
      ∀ line, expandAll line parts = expand line mnemonic (operands texts) := by
  cases h with
  | @input raw' mnemonic texts h hmnemonic h' =>
    refine ⟨mnemonic, texts, [("load_v".toList, texts ++ ["0".toList])], h,
      .cons (isInstruction_loadV h') .nil, List.cons_ne_nil _ _, fun line => ?_⟩
    have hlower : mnemonic.map Char.toLower = ['i', 'n', 'p', 'u', 't'] := hmnemonic
    rw [expandAll_singleton, operands_append, expand.eq_def line mnemonic, if_pos hlower]
    rfl
  | @output raw' mnemonic texts h hmnemonic h' =>
    refine ⟨mnemonic, texts, [("store_v".toList, "1".toList :: texts)], h,
      .cons (isInstruction_storeV h h') .nil, List.cons_ne_nil _ _, fun line => ?_⟩
    have hlower : mnemonic.map Char.toLower = ['o', 'u', 't', 'p', 'u', 't'] := hmnemonic
    rw [expandAll_singleton, expand.eq_def line mnemonic, if_neg (by simp [hlower]), if_pos hlower]
    rfl
  | @linear mnemonic register factor source first further terms h hmnemonic hcolon hfirst
      hfurther =>
    obtain ⟨texts, hraw, htexts⟩ := h.exists_isInstruction hmnemonic (by decide) hcolon
    simp only [List.forall_mem_cons] at hcolon
    obtain ⟨hregister, hfactor, hsource, hterms⟩ := hcolon
    have hlower : "linear".toList.map Char.toLower = "linear".toList := rfl
    obtain ⟨texts', hraw', htexts'⟩ := hfirst.exists_isInstruction hlower (by decide)
      (by simp [hregister, hfactor, hsource])
    obtain ⟨parts, hparts, hexpand⟩ := exists_further hfurther hregister hterms
    refine ⟨mnemonic, texts, ("linear".toList, texts') :: parts, hraw, .cons hraw' hparts,
      List.cons_ne_nil _ _, fun line => ?_⟩
    have hfirst' : operandWords texts' = register :: factor :: source :: termWords [] := htexts'
    have hhere := expand_linear (k := line) hlower hfirst'
    rw [expandAll, hhere, hexpand, expand_linear hmnemonic htexts]
    rfl

/-! ### What the lines are laid out as -/

theorem Layout.withDrafts_nil (l : Layout) : l.withDrafts [] = l := by
  rw [withDrafts, List.append_nil]

theorem Layout.withDrafts_append (l : Layout) (ds ds' : List Draft) :
    (l.withDrafts ds).withDrafts ds' = l.withDrafts (ds ++ ds') := by
  simp only [withDrafts, List.append_assoc]

theorem Layout.add_instruction {os : List Operand} :
    l.add ⟨k, .code (.instruction mnemonic os)⟩ =
      ((expand k mnemonic os).map l.withDrafts).mapError (Fault.mk k) := by
  simp only [add, CodeLayout.add]
  cases expand k mnemonic os <;> rfl

theorem foldlM_instruction (h : IsInstruction raw mnemonic texts) :
    (clausesFrom k (some .code) [raw]).foldlM Layout.add l =
      ((expand k mnemonic (operands texts)).map l.withDrafts).mapError (Fault.mk k) := by
  rw [clausesFrom_singleton, h.said?, Reading.ofText, h.read]
  change (l.add _ >>= pure) = _
  rw [Layout.add_instruction]
  cases expand k mnemonic (operands texts) <;> rfl

theorem clausesFrom_relabelled (line : Nat) (place : Option Section) (raw : List Char) :
    (clausesFrom line place [raw]).map (Clause.recode (.ofLines f)) =
      clausesFrom (f line) place [raw] := by
  have hsame : Reading.recode (.ofLines f) = id := funext Reading.recode_ofLines
  rw [map_recode_clausesFrom, hsame, Option.map_id_fun, clausesFrom_singleton]
  rfl

theorem foldlM_instructions (h : AreInstructions raws parts)
    (hline : ∀ i < raws.length, f (line + i) = k) (l : Layout) :
    ((clausesFrom line (some .code) raws).map (Clause.recode (.ofLines f))).foldlM Layout.add l =
      ((expandAll k parts).map l.withDrafts).mapError (Fault.mk k) := by
  induction h generalizing line l with
  | nil => exact congrArg Except.ok l.withDrafts_nil.symm
  | @cons raw p raws parts hraw _ ih =>
    obtain ⟨mnemonic, texts⟩ := p
    have hhere : f line = k := hline 0 (Nat.succ_pos _)
    have hrest (i : Nat) (hi : i < raws.length) : f (line + 1 + i) = k := by
      rw [Nat.add_assoc, Nat.add_comm 1]
      exact hline (i + 1) (Nat.succ_lt_succ hi)
    rw [clausesFrom_cons, hraw.openAfter, List.map_append, List.foldlM_append,
      clausesFrom_relabelled, hhere, foldlM_instruction hraw, expandAll]
    cases expand k mnemonic (operands texts) with
    | error cause => rfl
    | ok ds =>
      refine (ih hrest _).trans ?_
      cases expandAll k parts with
      | error cause => rfl
      | ok ds' => exact congrArg Except.ok (l.withDrafts_append ds ds')

theorem AreInstructions.openAfter (h : AreInstructions raws parts) :
    raws.foldl openAfter place = place := by
  induction h with
  | nil => rfl
  | cons hraw _ ih => rw [List.foldl_cons, hraw.openAfter, ih]

theorem Abbreviates.foldlM_eq (h : Abbreviates raw block) (hplace : place ≠ some .data)
    (hline : ∀ i < block.length, f (line + i) = k) (l : Layout) :
    ((clausesFrom line place block).map (Clause.recode (.ofLines f))).foldlM Layout.add l =
      (clausesFrom k place [raw]).foldlM Layout.add l := by
  obtain ⟨mnemonic, texts, parts, hraw, hparts, hne, hexpand⟩ := h.exists_parts
  match place with
  | some .code => rw [foldlM_instructions hparts hline, foldlM_instruction hraw, hexpand]
  | some .data => exact absurd rfl hplace
  | none =>
    cases hparts with
    | nil => exact absurd rfl hne
    | @cons first p further parts hfirst _ =>
      have hhere : f line = k := hline 0 (Nat.succ_pos _)
      rw [clausesFrom_cons, List.map_append, List.foldlM_append, clausesFrom_relabelled, hhere,
        clausesFrom_singleton, clausesFrom_singleton, hfirst.said?, hraw.said?]
      rfl

theorem line_of_block (h : ∀ i, f (line + i) = k + originOf (block :: blocks) i) :
    ∀ i < block.length, f (line + i) = k := by
  intro i hi
  rw [h i, originOf, if_pos hi, Nat.add_zero]

theorem line_behind_block (h : ∀ i, f (line + i) = k + originOf (block :: blocks) i) (i : Nat) :
    f (line + block.length + i) = k + 1 + originOf blocks i := by
  rw [Nat.add_assoc, h, originOf, if_neg (by omega), Nat.add_sub_cancel_left, Nat.add_assoc,
    Nat.add_comm 1]

theorem WrittenOut.foldlM_eq (h : WrittenOut place raws blocks)
    (hline : ∀ i, f (line + i) = k + originOf blocks i) (l : Layout) :
    ((clausesFrom line place blocks.flatten).map (Clause.recode (.ofLines f))).foldlM Layout.add l =
      (clausesFrom k place raws).foldlM Layout.add l := by
  induction h generalizing line k l with
  | nil => rfl
  | @keep place raws blocks raw _ ih =>
    have hhere : f line = k := line_of_block hline 0 (Nat.succ_pos _)
    have hlines : clausesFrom k place (raw :: raws) = _ := clausesFrom_cons
    rw [List.flatten_cons, clausesFrom_append, List.map_append, List.foldlM_append,
      clausesFrom_relabelled, hhere, hlines, List.foldlM_append]
    exact bind_congr fun l' => ih (line_behind_block hline) l'
  | @replace place raws block blocks raw hplace hblock _ ih =>
    obtain ⟨mnemonic, texts, parts, hraw, hparts, -⟩ := hblock.exists_parts
    have hlines : clausesFrom k place (raw :: raws) = _ := clausesFrom_cons
    rw [List.flatten_cons, clausesFrom_append, List.map_append, List.foldlM_append,
      hblock.foldlM_eq hplace (line_of_block hline), hlines, List.foldlM_append, hraw.openAfter,
      hparts.openAfter]
    exact bind_congr fun l' => ih (line_behind_block hline) l'

theorem WrittenOut.assemble_eq (h : WrittenOut none raws blocks)
    (hline : ∀ i, f (1 + i) = 1 + originOf blocks i) :
    (assemble (clausesFrom 1 none blocks.flatten)).mapError (fun x => ⟨f x.line, x.cause⟩) =
      assemble (clausesFrom 1 none raws) := by
  have hlayout := h.foldlM_eq hline Layout.start
  have hfault : (fun x : Fault => ⟨f x.line, x.cause⟩) = Fault.recode (.ofLines f) :=
    funext fun x => x.recode_ofLines.symm
  rw [hfault, ← assemble_recode isFaithful_ofLines, assemble, hlayout]
  rfl

theorem originOf_of_length_eq_one (h : ∀ block ∈ blocks, block.length = 1) (i : Nat) :
    originOf blocks i = i := by
  induction blocks generalizing i with
  | nil => rfl
  | cons block blocks ih =>
    obtain ⟨hblock, hblocks⟩ := List.forall_mem_cons.1 h
    rw [originOf, hblock, ih hblocks]
    split <;> omega

/-- Reading and writing the ports may be written as a load and a store, and a linear form as one
instruction for each of its terms, anywhere in a source. The image is the same, and so is the cause
of a fault, which is on the line that stands for the same line of the source. The line itself is
the same where each line is written as one. -/
theorem translate_writtenOut {source source' : List Char}
    (h : WrittenOut none (lines source) blocks) (h' : lines source' = blocks.flatten) :
    ((translate source').mapError fun fault =>
      ⟨originOf blocks (fault.line - 1) + 1, fault.cause⟩) = translate source ∧
    ((∀ block ∈ blocks, block.length = 1) → translate source' = translate source) := by
  rw [translate_eq_assemble, translate_eq_assemble, h']
  constructor
  · refine h.assemble_eq (f := fun line => originOf blocks (line - 1) + 1) fun i => ?_
    rw [Nat.add_sub_cancel_left, Nat.add_comm]
  · intro hone
    have hsame := h.assemble_eq (f := id) fun i => by rw [originOf_of_length_eq_one hone]; rfl
    rw [← hsame]
    cases assemble (clausesFrom 1 none blocks.flatten) <;> rfl

theorem translate_writtenOut_forms :
    translate ".code\nlinear r2 2 r1\nlinear_cont r2, x, r1\nx:\njmp x".toList =
      .ok ⟨[⟨0, .number, [1234]⟩, ⟨1, .number, [1234]⟩],
        [⟨0, .linear, [1, 2, 0]⟩, ⟨1, .linearCont, [1, 2, 0]⟩, ⟨2, .jmp, [2]⟩]⟩ ∧
    translate ".code\nload_v r1 r2 0".toList = .error ⟨2, .wrongArity .loadV 3⟩ := by
  constructor
  · have hform : translate ".code\nlinear r2 2 r1 x, r1\nx:\njmp x".toList =
        .ok ⟨[⟨0, .number, [1234]⟩, ⟨1, .number, [1234]⟩],
          [⟨0, .linear, [1, 2, 0]⟩, ⟨1, .linearCont, [1, 2, 0]⟩, ⟨2, .jmp, [2]⟩]⟩ := rfl
    have hspelled : Spells "linear r2 2 r1 x, r1".toList "linear".toList ("r2".toList ::
        "2".toList :: "r1".toList :: termWords [("x".toList, "r1".toList)]) := ⟨_, rfl, rfl⟩
    have hterms : Abbreviates "linear r2 2 r1 x, r1".toList
        ["linear r2 2 r1".toList, "linear_cont r2, x, r1".toList] :=
      .linear hspelled rfl (by decide) ⟨_, rfl, rfl⟩ (.cons ⟨_, rfl, rfl⟩ .nil)
    have hlines : WrittenOut none (lines ".code\nlinear r2 2 r1 x, r1\nx:\njmp x".toList)
        [[".code".toList], ["linear r2 2 r1".toList, "linear_cont r2, x, r1".toList],
          ["x:".toList], ["jmp x".toList]] :=
      .keep _ (.replace (by decide) hterms (.keep _ (.keep _ .nil)))
    exact mapError_eq_ok_iff.1 ((translate_writtenOut hlines rfl).1.trans hform)
  · have hload : Abbreviates "input r1 r2".toList ["load_v r1 r2 0".toList] :=
      .input ⟨rfl, rfl, by decide⟩ rfl rfl
    have hlines : WrittenOut none (lines ".code\ninput r1 r2".toList)
        [[".code".toList], ["load_v r1 r2 0".toList]] :=
      .keep _ (.replace (by decide) hload .nil)
    exact (translate_writtenOut hlines rfl).2 (by decide)

end TickMachine.Assembly
