import TickMachine.Proofs.Assembly.InstructionLines
import TickMachine.Proofs.Assembly.Names

/-! What stands around the name that a line defines. A label is a name between colons, and a
declaration has its name between the kind and the value. Any other name may stand in the same
place. -/

namespace TickMachine.Assembly

open Text

def isMark (c : Char) : Bool := isBlank c || c == ':'

variable {f : List Char → List Char} {text name : List Char} {c : Char} {d : Declaration}

/-! ### Labels -/

structure LabelFrame where
  before : List Char
  colons : List Char
  gap : List Char
  gap' : List Char
  colons' : List Char
  behind : List Char
  blank : ∀ c ∈ before ++ gap ++ gap' ++ behind, isBlank c
  colon : ∀ c ∈ colons ++ colons', (c == ':') = true
  begins : colons = [] → gap = []
  ends : colons' ≠ []

variable {w : LabelFrame}

def LabelFrame.label (w : LabelFrame) (name : List Char) : List Char :=
  w.colons ++ (w.gap ++ name ++ w.gap') ++ w.colons'

def LabelFrame.fill (w : LabelFrame) (name : List Char) : List Char :=
  w.before ++ w.label name ++ w.behind

theorem isMark_of_isPlain (h : isPlain c) : isMark c = false := by
  simp only [isPlain, Bool.and_eq_true, Bool.not_eq_true', bne_iff_ne] at h
  simp only [isMark, h.1.1.1, Bool.false_or]
  exact beq_false_of_ne h.2

theorem read_eq_label (h : CodeLine.read text = .label name) :
    text.getLast? = some ':' ∧ trim (trimWhile (· == ':') text) = name := by
  rw [CodeLine.read] at h
  split at h
  · next hends => exact ⟨hends, CodeLine.label.inj h⟩
  · split at h <;> cases h

theorem exists_fill_eq (h : CodeLine.read (trim text) = .label name) (hne : name ≠ []) :
    ∃ w : LabelFrame, text = w.fill name := by
  obtain ⟨hends, hname⟩ := read_eq_label h
  obtain ⟨before, behind, htext, hbefore, hbehind⟩ := exists_trimWhile isBlank text
  change text = before ++ trim text ++ behind at htext
  have htrimmed : IsTrimmed isBlank (trim text) := isTrimmed_trimWhile isBlank text
  generalize trim text = label at hends hname htext htrimmed
  obtain ⟨colons, colons', hlabel, hcolons, hcolons'⟩ := exists_trimWhile (· == ':') label
  have hinner := isTrimmed_trimWhile (· == ':') label
  generalize trimWhile (· == ':') label = inner at hname hlabel hinner
  obtain ⟨gap, gap', hgaps, hgap, hgap'⟩ := exists_trimWhile isBlank inner
  rw [show trimWhile isBlank inner = name from hname] at hgaps
  subst hgaps hlabel htext
  refine ⟨⟨before, colons, gap, gap', colons', behind, ?_, ?_, ?_, ?_⟩, rfl⟩
  · simp only [List.forall_mem_append]
    exact ⟨⟨⟨hbefore, hgap⟩, hgap'⟩, hbehind⟩
  · exact List.forall_mem_append.2 ⟨hcolons, hcolons'⟩
  · rintro rfl
    cases gap with
    | nil => rfl
    | cons c gap =>
      have hc := hgap c (List.mem_cons_self ..)
      rw [htrimmed.1 c rfl] at hc
      cases hc
  · rintro rfl
    have hne' : gap ++ name ++ gap' ≠ [] := by simp [hne]
    rw [List.append_nil, List.getLast?_append_of_ne_nil _ hne'] at hends
    exact absurd (hinner.2 ':' hends) (by decide)

theorem LabelFrame.getLast?_label (name : List Char) : (w.label name).getLast? = some ':' := by
  rw [label, List.getLast?_append_of_ne_nil _ w.ends, List.getLast?_eq_some_getLast w.ends]
  have hlast := w.colon _ (List.mem_append_right _ (List.getLast_mem w.ends))
  exact congrArg some (beq_iff_eq.1 hlast)

theorem LabelFrame.isTrimmed_inner (hname : IsName name) :
    IsTrimmed (· == ':') (w.gap ++ name ++ w.gap') := by
  refine isTrimmed_of_forall fun c hc => ?_
  rw [beq_eq_false_iff_ne]
  rintro rfl
  simp only [List.mem_append] at hc
  obtain (hc | hc) | hc := hc
  · exact absurd (w.blank ':' (by simp [hc])) (by decide)
  · exact absurd (hname.isPlainText.2 ':' hc) (by decide)
  · exact absurd (w.blank ':' (by simp [hc])) (by decide)

theorem LabelFrame.isTrimmed_label (hname : IsName name) :
    IsTrimmed isBlank (w.label name) := by
  constructor
  · intro c hc
    cases hcolons : w.colons with
    | nil =>
      obtain ⟨x, rest, rfl⟩ := List.exists_cons_of_ne_nil hname.ne_nil
      rw [label, hcolons, w.begins hcolons] at hc
      obtain rfl : x = c := Option.some.inj hc
      exact isBlank_of_isPlain (hname.isPlainText.2 x (List.mem_cons_self ..))
    | cons x colons =>
      rw [label, hcolons] at hc
      obtain rfl : x = c := Option.some.inj hc
      have hx := w.colon x (by simp [hcolons])
      rw [beq_iff_eq.1 hx]
      rfl
  · intro c hc
    rw [getLast?_label] at hc
    obtain rfl := Option.some.inj hc
    rfl

theorem LabelFrame.read_label (hname : IsName name) :
    CodeLine.read (w.label name) = .label name := by
  have hblanks := w.blank
  have hcolons := w.colon
  simp only [List.forall_mem_append] at hblanks hcolons
  obtain ⟨⟨⟨-, hgap⟩, hgap'⟩, -⟩ := hblanks
  rw [CodeLine.read, if_pos (w.getLast?_label name), label,
    trimWhile_of_isTrimmed hcolons.1 hcolons.2 (w.isTrimmed_inner hname), trim,
    trimWhile_of_isTrimmed hgap hgap' hname.isTrimmed]

theorem LabelFrame.trim_fill (hname : IsName name) : trim (w.fill name) = w.label name := by
  have hblanks := w.blank
  simp only [List.forall_mem_append] at hblanks
  exact trimWhile_of_isTrimmed hblanks.1.1.1 hblanks.2 (w.isTrimmed_label hname)

theorem LabelFrame.mapFirst_fill (hname : IsName name) :
    mapFirst isMark f id (w.fill name) = w.fill (f name) := by
  have hblanks : ∀ c ∈ w.before ++ w.gap ++ w.gap' ++ w.behind, isMark c :=
    fun c hc => by rw [isMark, w.blank c hc, Bool.true_or]
  have hcolons : ∀ c ∈ w.colons ++ w.colons', isMark c :=
    fun c hc => by rw [isMark, w.colon c hc, Bool.or_true]
  simp only [List.forall_mem_append] at hblanks hcolons
  obtain ⟨⟨⟨hbefore, hgap⟩, hgap'⟩, hbehind⟩ := hblanks
  have hfront : ∀ c ∈ w.before ++ w.colons ++ w.gap, isMark c := by
    simp only [List.forall_mem_append]
    exact ⟨⟨hbefore, hcolons.1⟩, hgap⟩
  have hback : ∀ c ∈ w.gap' ++ w.colons' ++ w.behind, isMark c := by
    simp only [List.forall_mem_append]
    exact ⟨⟨hgap', hcolons.2⟩, hbehind⟩
  have hfill (name : List Char) : w.fill name = w.before ++ w.colons ++ w.gap ++
      (name ++ (w.gap' ++ w.colons' ++ w.behind)) := by
    simp only [fill, label, List.append_assoc]
  rw [hfill, hfill]
  exact mapFirst_eq hfront hname.ne_nil (fun c hc => isMark_of_isPlain (hname.isPlainText.2 c hc))
    fun c hc => hback c (List.mem_of_head? hc)

theorem LabelFrame.directive?_label (hname : IsName name) : directive? (w.label name) = none := by
  refine directive?_eq_none fun hdot => ?_
  have hmem := List.mem_of_head? hdot
  simp only [label, List.mem_append] at hmem
  obtain (hmem | (hmem | hmem) | hmem) | hmem := hmem
  · exact absurd (w.colon '.' (by simp [hmem])) (by decide)
  · exact absurd (w.blank '.' (by simp [hmem])) (by decide)
  · exact absurd (hname.chars '.' hmem) (by decide)
  · exact absurd (w.blank '.' (by simp [hmem])) (by decide)
  · exact absurd (w.colon '.' (by simp [hmem])) (by decide)

/-! ### Declarations -/

structure DeclarationFrame where
  before : List Char
  kind : List Char
  gap : List Char
  behind : List Char
  blank : ∀ c ∈ before ++ gap, isBlank c
  isWord : IsWord kind
  gap_ne_nil : gap ≠ []
  begins : ∀ c, behind.head? = some c → isBlank c
  holds : trim behind ≠ []

variable {v : DeclarationFrame}

def DeclarationFrame.fill (v : DeclarationFrame) (name : List Char) : List Char :=
  v.before ++ (v.kind ++ (v.gap ++ (name ++ v.behind)))

theorem trim_cons_blank (hc : isBlank c) (text : List Char) : trim (c :: text) = trim text :=
  trimWhile_append_left (List.forall_mem_singleton.2 hc)

theorem exists_fill_eq_of_read? (h : Declaration.read? (trim text) = some d) :
    IsWord d.name ∧ ∃ v : DeclarationFrame, text = v.fill d.name := by
  have hfirst : ∀ c, (trim text).head? = some c → isBlank c = false := fun c => head?_trimWhile
  obtain ⟨before, back, htext, hbefore, hback⟩ := exists_trimWhile isBlank text
  change text = before ++ trim text ++ back at htext
  generalize trim text = line at h htext hfirst
  obtain ⟨⟨kind, rest⟩, hcut, h⟩ := Option.bind_eq_some_iff.1 h
  obtain ⟨⟨name, value⟩, hcut', h⟩ := Option.bind_eq_some_iff.1 h
  simp only [Option.ite_none_left_eq_some, Option.some.injEq] at h
  obtain ⟨hvalue, rfl⟩ := h
  obtain ⟨c, hline, hkind, hc⟩ := splitAtBlank?_eq_some hcut
  obtain ⟨c', hrest, hname, hc'⟩ := splitAtBlank?_eq_some hcut'
  have hkind_ne : kind ≠ [] := by
    rintro rfl
    rw [hfirst c (congrArg List.head? hline)] at hc
    cases hc
  have hname_ne : name ≠ [] := by
    rintro rfl
    rw [head?_dropWhile_eq_false (congrArg List.head? hrest)] at hc'
    cases hc'
  obtain ⟨gap, hgap, rfl⟩ :
      ∃ gap, (∀ c ∈ gap, isBlank c) ∧ rest = gap ++ (name ++ c' :: value) := by
    refine ⟨rest.takeWhile isBlank, List.all_eq_true.1 List.all_takeWhile, ?_⟩
    rw [← hrest, trimStart, trimStartWhile, List.takeWhile_append_dropWhile]
  have hbehind : trim (c' :: value ++ back) = trim value :=
    (trimWhile_append_right hback).trans (trim_cons_blank hc' value)
  refine ⟨⟨hname_ne, hname⟩, ⟨before, kind, c :: gap, c' :: value ++ back,
    List.forall_mem_append.2 ⟨hbefore, List.forall_mem_cons.2 ⟨hc, hgap⟩⟩, ⟨hkind_ne, hkind⟩,
    List.cons_ne_nil _ _, by rintro x ⟨⟩; exact hc', hbehind ▸ hvalue⟩, ?_⟩
  rw [htext, hline]
  simp only [DeclarationFrame.fill, List.append_assoc, List.cons_append]

theorem DeclarationFrame.head?_gap (rest : List Char) :
    ∀ c, (v.gap ++ rest).head? = some c → isBlank c := by
  intro c hc
  rw [List.head?_append_of_ne_nil _ v.gap_ne_nil] at hc
  exact v.blank c (List.mem_append_right _ (List.mem_of_head? hc))

theorem DeclarationFrame.trim_fill (hname : IsWord name) :
    trim (v.fill name) = v.kind ++ (v.gap ++ (name ++ trimEndWhile isBlank v.behind)) := by
  have hlast : ∀ c, (v.gap ++ name).getLast? = some c → isBlank c = false := by
    intro c hc
    rw [List.getLast?_append_of_ne_nil _ hname.1] at hc
    exact hname.2 c (List.mem_of_getLast? hc)
  have hbefore := (List.forall_mem_append.1 v.blank).1
  refine (trimWhile_append_left hbefore).trans ((trim_word_append v.isWord _).trans ?_)
  rw [← List.append_assoc, trimEndWhile_append hlast, List.append_assoc]

theorem DeclarationFrame.trim_behind :
    trim (trimEndWhile isBlank v.behind) = trim v.behind := by
  obtain ⟨back, hbehind, hback⟩ := exists_trimEndWhile isBlank v.behind
  have htrim : trim (trimEndWhile isBlank v.behind ++ back) = _ := trimWhile_append_right hback
  rw [← hbehind] at htrim
  exact htrim.symm

theorem DeclarationFrame.read?_fill (hname : IsWord name) :
    Declaration.read? (trim (v.fill name)) = some ⟨v.kind, name, trim v.behind⟩ := by
  have hvalue := v.trim_behind
  have hhead (c : Char) (hc : (trimEndWhile isBlank v.behind).head? = some c) : isBlank c :=
    v.begins c (head?_trimEndWhile hc)
  have hholds := v.holds
  rw [← hvalue] at hholds ⊢
  rw [v.trim_fill hname, Declaration.read?, splitAtBlank?_word v.isWord (v.head?_gap _)]
  generalize trimEndWhile isBlank v.behind = behind at hhead hholds ⊢
  obtain ⟨c, gap, hgap⟩ := List.exists_cons_of_ne_nil v.gap_ne_nil
  have hblank : ∀ c ∈ gap, isBlank c :=
    fun x hx => v.blank x (by simp [hgap, hx])
  have hstart : trimStart (gap ++ (name ++ behind)) = name ++ behind := by
    rw [trimStart, trimStartWhile, List.dropWhile_append_of_pos hblank,
      dropWhile_eq_self (head?_word_append hname behind)]
  cases behind with
  | nil => exact absurd rfl hholds
  | cons x rest =>
    rw [trim_cons_blank (hhead x rfl)] at hholds ⊢
    rw [hgap]
    change (splitAtBlank? (trimStart (gap ++ (name ++ x :: rest))) >>= _) = _
    rw [hstart, splitAtBlank?_word hname hhead]
    exact if_neg hholds

theorem DeclarationFrame.mapFirst_fill (hname : IsWord name) :
    mapFirst isBlank id (mapFirst isBlank f id) (v.fill name) = v.fill (f name) := by
  have hblank := List.forall_mem_append.1 v.blank
  rw [fill, mapFirst_eq hblank.1 v.isWord.1 v.isWord.2 (v.head?_gap _),
    mapFirst_eq hblank.2 hname.1 hname.2 v.begins]
  rfl

theorem DeclarationFrame.directive?_fill (hcomment : ';' ∉ v.fill name) :
    directive? (content (v.fill name)) = directive? v.kind := by
  have hbefore := (List.forall_mem_append.1 v.blank).1
  have hwords : words (content (v.fill name)) = v.kind :: words (v.gap ++ (name ++ v.behind)) := by
    rw [content_eq_trim hcomment, words_trim, fill, words_blanks_append hbefore,
      words_word_append v.isWord (v.head?_gap _)]
  exact directive?_content hwords

end TickMachine.Assembly
