import TickMachine.Proofs.Assembly.Clauses
import TickMachine.Proofs.Text.Words

/-! Lines with an instruction by their words. The first word tells whether the line opens a section,
the last one whether it is a label, and if neither then nothing but the words makes a difference. -/

namespace TickMachine.Assembly

open Text

def operandWords (texts : List (List Char)) : List (List Char) :=
  (texts.map (trimEndWhile (· == ','))).filter (!·.isEmpty)

/-- The line has the words of an instruction: it opens no section and does not end with a colon. -/
structure IsInstruction (raw mnemonic : List Char) (texts : List (List Char)) : Prop where
  words : words (content raw) = mnemonic :: texts
  plain : directive? mnemonic = none
  ends : (content raw).getLast? ≠ some ':'

variable {raw mnemonic text word : List Char} {texts texts' : List (List Char)} {c : Char}
  {place : Option Section}

theorem operands_eq (texts : List (List Char)) :
    operands texts = (operandWords texts).map Operand.read := rfl

theorem operandWords_append (texts texts' : List (List Char)) :
    operandWords (texts ++ texts') = operandWords texts ++ operandWords texts' := by
  rw [operandWords, List.map_append, List.filter_append]
  rfl

theorem operands_append (texts texts' : List (List Char)) :
    operands (texts ++ texts') = operands texts ++ operands texts' := by
  rw [operands_eq, operandWords_append, List.map_append]
  rfl

theorem operands_singleton (word : List Char) : operands [word] =
    if trimEndWhile (· == ',') word = [] then []
    else [Operand.read (trimEndWhile (· == ',') word)] := by
  rw [operands, List.map_singleton]
  split
  · next hnil =>
    rw [hnil]
    rfl
  · next hne =>
    rw [List.filter_cons_of_pos (by simpa using hne)]
    rfl

/-! ### The ends of a line -/

theorem head?_content (h : (content raw).head? = some c) : isBlank c = false := head?_trimWhile h

theorem getLast?_content (h : (content raw).getLast? = some c) : isBlank c = false :=
  getLast?_trimWhile h

theorem words_content (raw : List Char) :
    words (content raw) = words (raw.takeWhile (· != ';')) := words_trim _

theorem content_ne_nil (h : words (content raw) = word :: texts) : content raw ≠ [] := by
  intro hnil
  rw [hnil] at h
  cases h

theorem isPrefixOf_takeWhile {p : Char → Bool} {pre : List Char} (h : ∀ c ∈ pre, p c)
    (text : List Char) : pre.isPrefixOf (text.takeWhile p) = pre.isPrefixOf text := by
  induction pre generalizing text with
  | nil => rw [List.isPrefixOf_nil_left, List.isPrefixOf_nil_left]
  | cons x pre ih =>
    obtain ⟨hx, hpre⟩ := List.forall_mem_cons.1 h
    cases text with
    | nil => rfl
    | cons y text =>
      by_cases hxy : x = y
      · subst hxy
        rw [List.takeWhile_cons_of_pos hx, List.isPrefixOf, List.isPrefixOf, ih hpre]
      · have hbeq : (x == y) = false := beq_false_of_ne hxy
        cases hy : p y <;> simp [List.isPrefixOf, hbeq, hy]

theorem directive?_content (h : words (content raw) = word :: texts) :
    directive? (content raw) = directive? word := by
  have hfirst := words_eq_cons (content_ne_nil h) fun c => head?_content
  obtain ⟨rfl, -⟩ := List.cons.inj (h.symm.trans hfirst)
  have hdata : ∀ c ∈ ['.', 'd', 'a', 't', 'a'], (!isBlank c) = true := List.all_eq_true.1 rfl
  have hcode : ∀ c ∈ ['.', 'c', 'o', 'd', 'e'], (!isBlank c) = true := List.all_eq_true.1 rfl
  rw [directive?, directive?, isPrefixOf_takeWhile hdata, isPrefixOf_takeWhile hcode]

theorem getLast?_content_iff : (content raw).getLast? = some c ↔
    ∃ word, (words (content raw)).getLast? = some word ∧ word.getLast? = some c := by
  constructor
  · exact fun h => getLast?_words h (getLast?_content h)
  · rintro ⟨word, hword, hc⟩
    have hne : content raw ≠ [] := by
      intro hnil
      rw [hnil] at hword
      cases hword
    have hlast := List.getLast?_eq_some_getLast hne
    obtain ⟨word', hword', hc'⟩ := getLast?_words hlast (getLast?_content hlast)
    obtain rfl := Option.some.inj (hword.symm.trans hword')
    rw [hlast, ← hc', hc]

theorem isInstruction_of_words (h : words (content raw) = mnemonic :: texts)
    (hplain : directive? mnemonic = none)
    (hlast : ∀ word, (mnemonic :: texts).getLast? = some word → word.getLast? ≠ some ':') :
    IsInstruction raw mnemonic texts := by
  refine ⟨h, hplain, fun hcolon => ?_⟩
  obtain ⟨word, hword, hc⟩ := getLast?_content_iff.1 hcolon
  rw [h] at hword
  exact hlast word hword hc

theorem IsInstruction.last (h : IsInstruction raw mnemonic texts) :
    ∀ word, (mnemonic :: texts).getLast? = some word → word.getLast? ≠ some ':' := by
  intro word hword hc
  exact h.ends (getLast?_content_iff.2 ⟨word, h.words ▸ hword, hc⟩)

theorem exists_isInstruction (hne : content raw ≠ []) (hplain : directive? (content raw) = none)
    (hends : (content raw).getLast? ≠ some ':') :
    ∃ mnemonic texts, IsInstruction raw mnemonic texts := by
  have hwords := words_eq_cons hne fun c => head?_content
  exact ⟨_, _, hwords, directive?_content hwords ▸ hplain, hends⟩

/-! ### What the line says -/

theorem directive?_eq_none (h : text.head? ≠ some '.') : directive? text = none := by
  cases text with
  | nil => rfl
  | cons c text =>
    have hbeq : ('.' == c) = false := beq_false_of_ne fun hc => h (hc ▸ rfl)
    simp [directive?, List.isPrefixOf, hbeq]

theorem IsInstruction.directive? (h : IsInstruction raw mnemonic texts) :
    directive? (content raw) = none :=
  (directive?_content h.words).trans h.plain

theorem IsInstruction.read (h : IsInstruction raw mnemonic texts) :
    CodeLine.read (content raw) = .instruction mnemonic (operands texts) := by
  rw [CodeLine.read, if_neg h.ends, h.words]

theorem IsInstruction.said? (h : IsInstruction raw mnemonic texts) :
    said? place raw = some (.ofText (content raw) place) := by
  have hne := content_ne_nil h.words
  exact if_neg (by simp [hne, h.directive?])

theorem IsInstruction.openAfter (h : IsInstruction raw mnemonic texts) :
    openAfter place raw = place := by
  rw [Assembly.openAfter, h.directive?]
  rfl

theorem exists_isInstruction_of_read {os : List Operand} (hne : content raw ≠ [])
    (hplain : directive? (content raw) = none)
    (h : CodeLine.read (content raw) = .instruction mnemonic os) :
    ∃ texts, IsInstruction raw mnemonic texts ∧ os = operands texts := by
  have hends : (content raw).getLast? ≠ some ':' := by
    intro hcolon
    rw [CodeLine.read, if_pos hcolon] at h
    cases h
  obtain ⟨first, texts, hraw⟩ := exists_isInstruction hne hplain hends
  obtain ⟨rfl, rfl⟩ := CodeLine.instruction.inj (h.symm.trans hraw.read)
  exact ⟨texts, hraw, rfl⟩

end TickMachine.Assembly
