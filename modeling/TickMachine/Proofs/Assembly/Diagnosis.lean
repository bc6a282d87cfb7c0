import TickMachine.Proofs.Assembly.Addresses
import TickMachine.Proofs.Assembly.Lines

/-! What the faults of a translation tell. A line is at fault while it is laid out, and then nothing
behind it is looked at; or everything is laid out, and a name is missed in the first instruction
that uses one which nothing defines. -/

namespace TickMachine.Assembly

open Text

def Cause.IsUnresolved (c : Cause) : Prop := ∃ name, c = .unresolvedSymbol name

/-- A source is translated, or there is nothing wrong with it but a name that nothing defines. -/
def TranslatesButNames (source : List Char) : Prop :=
  (∃ image, translate source = .ok image) ∨
    ∃ fault, translate source = .error fault ∧ fault.cause.IsUnresolved

def Statement.Defines (s : Statement) (name : List Char) : Prop :=
  s.place = some .code ∧ s.codeLine = .label name ∨
    s.place = some .data ∧ ∃ d, Declaration.read? s.text = some d ∧ d.name = name

/-- The instruction of the line with the number `line` is the first that names what the layout does
not know, and `name` is the first such name in it. -/
structure Layout.Lacks (l : Layout) (line : Nat) (name : List Char) : Prop where
  unknown : l.lookup? name = none
  first : ∃ before d after operands operands', l.code.drafts = before ++ d :: after ∧
    d.line = line ∧ d.operands = operands ++ .symbol name :: operands' ∧
    (∀ d' ∈ before, ∀ operand ∈ d'.operands, ∃ v, l.resolve d'.line operand = .ok v) ∧
    ∀ operand ∈ operands, ∃ v, l.resolve line operand = .ok v

variable {l : Layout} {line k : Nat} {text name mnemonic : List Char} {os : List Operand}
  {cause : Cause} {fault : Fault} {s : Statement} {ss : List Statement} {source : List Char}

/-! ### Faults of lines -/

theorem integer_error (h : integer text = .error cause) : ¬ cause.IsUnresolved := by
  rw [integer] at h
  split at h
  · cases h
  · obtain rfl := Except.error.inj h
    simp [Cause.IsUnresolved]

theorem cellValues_error {kind : Opcode} (h : cellValues kind text = .error cause) :
    ¬ cause.IsUnresolved := by
  unfold cellValues at h
  split at h
  · obtain h | ⟨v, -, h⟩ := except_bind_eq_error_iff.1 h
    · exact integer_error h
    · cases h
  · cases h
  · obtain h | ⟨size, -, h⟩ := except_bind_eq_error_iff.1 h
    · exact integer_error h
    · split at h
      · obtain rfl := Except.error.inj h
        simp [Cause.IsUnresolved]
      · cases h

theorem DataLayout.declare_error {l : DataLayout} (h : l.declare text = .error cause) :
    ¬ cause.IsUnresolved := by
  unfold declare at h
  split at h
  · split at h
    · split at h
      · obtain rfl := Except.error.inj h
        simp [Cause.IsUnresolved]
      · obtain h | ⟨values, -, h⟩ := except_bind_eq_error_iff.1 h
        · exact cellValues_error h
        · cases h
    · obtain rfl := Except.error.inj h
      simp [Cause.IsUnresolved]
  · obtain rfl := Except.error.inj h
    simp [Cause.IsUnresolved]

theorem single_error {opcode : Opcode} (h : single line opcode os = .error cause) :
    ¬ cause.IsUnresolved := by
  rw [single] at h
  split at h
  · cases h
  · obtain rfl := Except.error.inj h
    simp [Cause.IsUnresolved]

theorem linearForm_error (h : linearForm line os = .error cause) :
    cause = .badLinearArity os.length := by
  rw [linearForm.eq_def] at h
  split at h
  · split at h
    · cases h
    · exact (Except.error.inj h).symm
  · exact (Except.error.inj h).symm

theorem expand_error (h : expand line mnemonic os = .error cause) : ¬ cause.IsUnresolved := by
  simp only [expand] at h
  split at h
  · exact single_error h
  split at h
  · exact single_error h
  split at h
  · rw [linearForm_error h]
    simp [Cause.IsUnresolved]
  split at h
  · exact single_error h
  · obtain rfl := Except.error.inj h
    simp [Cause.IsUnresolved]

theorem CodeLayout.place_error {l : CodeLayout} (h : l.place line text = .error cause) :
    ¬ cause.IsUnresolved := by
  cases hread : CodeLine.read text with
  | label name =>
    rw [place_label hread] at h
    split at h
    · obtain rfl := Except.error.inj h
      simp [Cause.IsUnresolved]
    · cases h
  | instruction mnemonic os =>
    rw [place_instruction hread] at h
    obtain h | ⟨ds, -, h⟩ := except_bind_eq_error_iff.1 h
    · exact expand_error h
    · cases h

theorem Layout.place_error (h : l.place s = .error fault) :
    fault.line = s.line ∧ ¬ fault.cause.IsUnresolved := by
  rw [place, mapError_eq_error_iff] at h
  obtain ⟨cause, h, rfl⟩ := h
  refine ⟨rfl, ?_⟩
  split at h
  · obtain h | ⟨data, -, h⟩ := except_bind_eq_error_iff.1 h
    · exact DataLayout.declare_error h
    · cases h
  · obtain h | ⟨code, -, h⟩ := except_bind_eq_error_iff.1 h
    · exact CodeLayout.place_error h
    · cases h
  · obtain rfl := Except.error.inj h
    simp [Cause.IsUnresolved]

/-! ### Names that nothing defines -/

theorem Layout.resolve_eq_error_iff {operand : Operand} :
    l.resolve line operand = .error fault ↔ ∃ name, operand = .symbol name ∧
      l.lookup? name = none ∧ fault = ⟨line, .unresolvedSymbol name⟩ := by
  cases operand with
  | value v => exact ⟨nofun, by rintro ⟨_, h, -⟩; cases h⟩
  | symbol name =>
    rw [resolve]
    cases hlookup : l.lookup? name with
    | none => simp [hlookup, eq_comm]
    | some v => simp [hlookup]

theorem Layout.word_eq_error_iff {i : Nat} {d : Draft} : l.word i d = .error fault ↔
    ∃ operands name operands', d.operands = operands ++ .symbol name :: operands' ∧
      (∀ operand ∈ operands, ∃ v, l.resolve d.line operand = .ok v) ∧ l.lookup? name = none ∧
      fault = ⟨d.line, .unresolvedSymbol name⟩ := by
  rw [word, except_bind_eq_error_iff]
  constructor
  · rintro (h | ⟨args, -, h⟩)
    · obtain ⟨operands, operand, operands', hd, hbefore, h⟩ := mapM_eq_error_iff.1 h
      obtain ⟨name, rfl, hlookup, rfl⟩ := resolve_eq_error_iff.1 h
      exact ⟨operands, name, operands', hd, hbefore, hlookup, rfl⟩
    · cases h
  · rintro ⟨operands, name, operands', hd, hbefore, hlookup, rfl⟩
    refine .inl (mapM_eq_error_iff.2 ⟨operands, _, operands', hd, hbefore, ?_⟩)
    exact resolve_eq_error_iff.2 ⟨name, rfl, hlookup, rfl⟩

theorem Layout.lacks_of_image_eq_error (h : l.image = .error fault) :
    ∃ name, fault.cause = .unresolvedSymbol name ∧ l.Lacks fault.line name := by
  rw [image, except_bind_eq_error_iff] at h
  obtain h | ⟨code, -, h⟩ := h
  · obtain ⟨before, ⟨d, i⟩, after, hdrafts, hbefore, h⟩ := mapM_eq_error_iff.1 h
    obtain ⟨operands, name, operands', hoperands, hknown, hlookup, hfault⟩ :=
      word_eq_error_iff.1 h
    have hsplit : l.code.drafts = before.map Prod.fst ++ d :: after.map Prod.fst := by
      have hfst := congrArg (List.map Prod.fst) hdrafts
      rwa [List.zipIdx_map_fst, List.map_append, List.map_cons] at hfst
    rw [hfault]
    refine ⟨name, rfl, hlookup, _, d, _, operands, operands', hsplit, rfl, hoperands, ?_, hknown⟩
    rw [List.forall_mem_map]
    intro p hp operand hoperand
    obtain ⟨w, hw⟩ := hbefore p hp
    obtain ⟨args, hargs, -⟩ := except_bind_eq_ok_iff.1 hw
    exact exists_of_mem_of_mapM_eq_ok hargs hoperand
  · cases h

theorem mem_draftsOf {iss : List (List Instruction)} {d : Draft}
    (h : List.Forall₂ (fun s is => s.codeLine.Gives is) ss iss) (hd : d ∈ draftsOf ss iss) :
    ∃ s ∈ ss, d.line = s.line ∧ ∃ is, s.codeLine.Gives is ∧ d.instruction ∈ is := by
  obtain ⟨⟨s, is⟩, hzip, hd⟩ := List.mem_flatMap.1 hd
  obtain ⟨i, hi, rfl⟩ := List.mem_map.1 hd
  have hgives : s.codeLine.Gives is := (List.forall₂_iff_zip.1 h).2 hzip
  exact ⟨s, (List.of_mem_zip hzip).1, rfl, is, hgives, hi⟩

namespace Outline

variable {o : Outline}

theorem Describes.not_defines (h : o.Describes ss) (hlookup : (o.layout ss).lookup? name = none) :
    ∀ s ∈ ss, ¬ s.Defines name := by
  obtain ⟨hlabels, hnames⟩ := Option.or_eq_none_iff.1 hlookup
  have hlines : name ∉ o.lines.filterMap CodeLine.label? := by
    rw [lookup_eq_none_iff_notMem, Outline.layout, List.map_reverse, List.mem_reverse, labelsFrom,
      map_fst_entriesFrom] at hlabels
    exact hlabels
  have hdeclared : name ∉ o.declared.map Declared.name := by
    rw [lookup_eq_none_iff_notMem, Outline.layout, List.map_reverse, List.mem_reverse,
      variablesFrom, map_fst_entriesFrom, filterMap_name] at hnames
    exact hnames
  rintro s hs (⟨hplace, hlabel⟩ | ⟨hplace, d, hread, hname⟩)
  · have hline : CodeLine.label name ∈ o.lines := by
      have hmem : s ∈ statementsIn .code ss := List.mem_filter.2 ⟨hs, decide_eq_true hplace⟩
      rw [h.lines, ← hlabel]
      exact List.mem_map_of_mem (List.mem_map_of_mem hmem)
    exact hlines (List.mem_filterMap.2 ⟨_, hline, rfl⟩)
  · have htext : s.text ∈ textsIn .data ss :=
      List.mem_map_of_mem (List.mem_filter.2 ⟨hs, decide_eq_true hplace⟩)
    obtain ⟨d', hd', kind, value, hread', -⟩ := exists_mem_of_forall₂ h.declared htext
    rw [hread'] at hread
    obtain rfl := Option.some.inj hread
    exact hdeclared (hname ▸ List.mem_map_of_mem hd')

theorem Describes.line_of_lacks (h : o.Describes ss) (hlacks : (o.layout ss).Lacks k name) :
    ∃ s ∈ ss, s.line = k ∧ s.place = some .code ∧
      ∃ mnemonic os, s.codeLine = .instruction mnemonic os ∧ .symbol name ∈ os := by
  obtain ⟨-, before, d, after, operands, operands', hdrafts, hline, hoperands, -⟩ := hlacks
  have hgives : List.Forall₂ (fun s is => s.codeLine.Gives is) (statementsIn .code ss)
      o.instructions := by
    have hinstructions := h.instructions
    rw [h.lines, textsIn, List.map_map] at hinstructions
    exact List.forall₂_map_left_iff.1 hinstructions
  have hd : d ∈ (o.layout ss).code.drafts :=
    hdrafts ▸ List.mem_append_right _ (List.mem_cons_self ..)
  obtain ⟨s, hs, hsline, is, hsgives, hi⟩ := mem_draftsOf hgives hd
  obtain ⟨hs, hplace⟩ := List.mem_filter.1 hs
  refine ⟨s, hs, hsline.symm.trans hline, of_decide_eq_true hplace, ?_⟩
  have hname : .symbol name ∈ d.operands :=
    hoperands ▸ List.mem_append_right _ (List.mem_cons_self ..)
  cases hcode : s.codeLine with
  | label label =>
    rw [hcode] at hsgives
    cases hsgives
    cases hi
  | instruction mnemonic os =>
    rw [hcode] at hsgives
    exact ⟨mnemonic, os, rfl, hsgives.mem_operands hi hname⟩

end Outline

/-! ### The line of a fault -/

theorem layout_error (h : layout ss = .error fault) : ¬ fault.cause.IsUnresolved ∧
    ∃ before s after l, ss = before ++ s :: after ∧ s.line = fault.line ∧
      layout before = .ok l ∧ l.place s = .error fault := by
  obtain ⟨before, s, after, l, hss, hbefore, hs⟩ := foldlM_eq_error_iff.1 h
  obtain ⟨hline, hcause⟩ := Layout.place_error hs
  exact ⟨hcause, before, s, after, l, hss, hline.symm, hbefore, hs⟩

theorem translatesButNames_of_layout (h : layout (statements source) = .ok l) :
    TranslatesButNames source := by
  cases himage : l.image with
  | ok image => exact .inl ⟨image, except_bind_eq_ok_iff.2 ⟨l, h, himage⟩⟩
  | error fault =>
    obtain ⟨name, hcause, -⟩ := Layout.lacks_of_image_eq_error himage
    exact .inr ⟨fault, except_bind_eq_error_iff.2 (.inr ⟨l, h, himage⟩), name, hcause⟩

theorem layout_of_prefix {before : List Statement} (h : layout ss = .ok l)
    (hbefore : before <+: ss) : ∃ l', layout before = .ok l' := by
  obtain ⟨after, rfl⟩ := hbefore
  rw [layout, List.foldlM_append] at h
  obtain ⟨l', hl', -⟩ := except_bind_eq_ok_iff.1 h
  exact ⟨l', hl'⟩

theorem line_of_mem_statements (h : s ∈ statements source) :
    1 ≤ s.line ∧ s.line ≤ (endedLines source).length := by
  rw [statements_eq_endedLines] at h
  have hline := line_of_mem_statementsFrom h
  omega

theorem content_of_mem_statements (h : s ∈ statements source) :
    (endedLines source)[s.line - 1]?.map content = some s.text := by
  rw [statements_eq_endedLines] at h
  obtain ⟨i, raw, hraw, hline, htext⟩ := getElem?_of_mem_statementsFrom h
  rw [hline, Nat.add_sub_cancel_left, hraw, htext]
  rfl

theorem exists_endedLines_eq_take (source : List Char) (n : Nat) :
    ∃ source', endedLines source' = (endedLines source).take n :=
  ⟨_, endedLines_flatMap fun line hline =>
    newline_not_mem_endedLines line (List.mem_of_mem_take hline)⟩

/-- A source that fails on a line fails alike whatever stands below that line, and above it there is
nothing wrong but a name that nothing defines. -/
theorem translate_of_layout_error (h : layout (statements source) = .error fault) :
    (∀ source', (endedLines source').take fault.line = (endedLines source).take fault.line →
      translate source' = .error fault) ∧
    ∀ source', endedLines source' = (endedLines source).take (fault.line - 1) →
      TranslatesButNames source' := by
  obtain ⟨-, before, s, after, l, hss, hline, hbefore, hs⟩ := layout_error h
  have hsorted := pairwise_statements source
  have hpos : 1 ≤ s.line := by
    have hmem : s ∈ statements source := hss ▸ List.mem_append_right _ (List.mem_cons_self ..)
    exact (line_of_mem_statements hmem).1
  rw [hss] at hsorted
  constructor
  · intro source' hsame
    obtain ⟨cut, hcut⟩ := exists_endedLines_eq_take source fault.line
    have hstatements := statements_of_take hcut
    rw [hss, ← hline, filter_line_le hsorted] at hstatements
    obtain ⟨rest, hrest⟩ := statements_prefix_of_take (hcut.trans hsame.symm)
    have hlayout : layout (statements source') = .error fault := by
      refine foldlM_eq_error_iff.2 ⟨before, s, rest, l, ?_, hbefore, hs⟩
      rw [← hrest, hstatements, List.append_assoc, List.singleton_append]
    exact except_bind_eq_error_iff.2 (.inl hlayout)
  · intro source' hcut
    have hstatements := statements_of_take hcut
    rw [hss, ← hline, Nat.sub_add_cancel hpos, filter_line_lt hsorted] at hstatements
    exact translatesButNames_of_layout (hstatements ▸ hbefore)

/-- A fault is on a line of the source. If it is not a name that nothing defines, then the source
fails in the same way with any other lines below that line, and the lines above it have nothing
wrong with them but such a name. If it is, then no line has anything else wrong with it, the name is
an operand on the line, no line defines it, and every operand before it is known. -/
theorem translate_fault {source : List Char} {k : Nat} {cause : Cause}
    (h : translate source = .error ⟨k, cause⟩) :
    1 ≤ k ∧ k ≤ (endedLines source).length ∧
    (¬ cause.IsUnresolved →
      (∀ source', (endedLines source').take k = (endedLines source).take k →
        translate source' = .error ⟨k, cause⟩) ∧
      (∃ source', endedLines source' = (endedLines source).take (k - 1)) ∧
      ∀ source', endedLines source' = (endedLines source).take (k - 1) →
        TranslatesButNames source') ∧
    ∀ name, cause = .unresolvedSymbol name →
      (∀ n source', endedLines source' = (endedLines source).take n →
        TranslatesButNames source') ∧
      (∀ s ∈ statements source, ¬ s.Defines name) ∧
      (∃ s ∈ statements source, (endedLines source)[k - 1]?.map content = some s.text ∧
        s.line = k ∧ s.place = some .code ∧
        ∃ mnemonic os, s.codeLine = .instruction mnemonic os ∧ .symbol name ∈ os) ∧
      ∃ l, layout (statements source) = .ok l ∧ l.Lacks k name := by
  obtain hlayout | ⟨l, hlayout, himage⟩ := except_bind_eq_error_iff.1 h
  · obtain ⟨hcause, before, s, after, l, hss, hline, -⟩ := layout_error hlayout
    have hmem : s ∈ statements source := hss ▸ List.mem_append_right _ (List.mem_cons_self ..)
    have hbounds := line_of_mem_statements hmem
    rw [hline] at hbounds
    obtain ⟨hsame, habove⟩ := translate_of_layout_error hlayout
    refine ⟨hbounds.1, hbounds.2, fun _ => ⟨hsame, exists_endedLines_eq_take _ _, habove⟩, ?_⟩
    exact fun name hname => absurd ⟨name, hname⟩ hcause
  · obtain ⟨name, hcause, hlacks⟩ := Layout.lacks_of_image_eq_error himage
    obtain ⟨o, ho, rfl⟩ := layout_eq_ok_iff.1 hlayout
    obtain ⟨s, hs, hline, hcode⟩ := ho.line_of_lacks hlacks
    have hbounds := line_of_mem_statements hs
    have htext := content_of_mem_statements hs
    rw [hline] at hbounds htext
    refine ⟨hbounds.1, hbounds.2, fun hne => absurd ⟨name, hcause⟩ hne, ?_⟩
    rintro _ rfl
    obtain rfl := Cause.unresolvedSymbol.inj hcause
    refine ⟨fun n source' hcut => ?_, ho.not_defines hlacks.unknown,
      ⟨s, hs, htext, hline, hcode⟩, _, hlayout, hlacks⟩
    obtain ⟨l', hl'⟩ := layout_of_prefix hlayout (statements_prefix_of_take hcut)
    exact translatesButNames_of_layout hl'

theorem translate_fault_kinds :
    (∀ source', (endedLines source').take 2 = [".code".toList, "foo x".toList] →
      translate source' = .error ⟨2, .unknownMnemonic "foo".toList⟩) ∧
    ∃ l, layout (statements ".code\nhlt\njmp x\njmp y".toList) = .ok l ∧ l.Lacks 3 ['x'] := by
  have hmnemonic : translate ".code\nfoo x\njmp y".toList =
      .error ⟨2, .unknownMnemonic "foo".toList⟩ := rfl
  have hname : translate ".code\nhlt\njmp x\njmp y".toList =
      .error ⟨3, .unresolvedSymbol ['x']⟩ := rfl
  obtain ⟨-, -, hline, -⟩ := translate_fault hmnemonic
  obtain ⟨-, -, -, hlacks⟩ := translate_fault hname
  exact ⟨(hline nofun).1, (hlacks _ rfl).2.2.2⟩

end TickMachine.Assembly
