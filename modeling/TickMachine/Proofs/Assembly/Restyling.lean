import Mathlib.Logic.Relation
import TickMachine.Proofs.Assembly.InstructionLines
import TickMachine.Proofs.Assembly.Recoding

/-! The ways to write the same line. Comments, blanks around the text and between the words of an
instruction, commas behind operands, and the case of mnemonics and kinds make no difference, and
lines without any text only move the lines behind them. -/

namespace TickMachine.Assembly

open Text

def IsWordEnd (back : List Char) : Prop := ∀ c ∈ back.head?, isBlank c ∨ c = ';'

def IsVisible (word : List Char) : Prop := IsWord word ∧ ';' ∉ word

def HasInstruction (raw : List Char) : Prop :=
  content raw ≠ [] ∧ directive? (content raw) = none ∧ (content raw).getLast? ≠ some ':'

instance (back : List Char) : Decidable (IsWordEnd back) :=
  Option.decidableForallMem back.head?

instance (word : List Char) : Decidable (IsVisible word) :=
  haveI : Decidable (∀ c ∈ word, isBlank c = false) := List.decidableBAll _ word
  inferInstanceAs (Decidable ((word ≠ [] ∧ ∀ c ∈ word, isBlank c = false) ∧ ';' ∉ word))

instance (raw : List Char) : Decidable (HasInstruction raw) :=
  inferInstanceAs (Decidable (content raw ≠ [] ∧ directive? (content raw) = none ∧
    (content raw).getLast? ≠ some ':'))

/-- One change to a line in the section `place`: a comment behind it, blanks at its ends, a carriage
return among them, other blanks between the words of an instruction, a mnemonic or a kind in other
letters, or a comma behind an operand. -/
inductive Edit : Option Section → List Char → List Char → Prop
  | comment {place : Option Section} (raw text : List Char) : Edit place raw (raw ++ ';' :: text)
  | indent {place : Option Section} {gap : List Char} (raw : List Char)
    (hgap : ∀ c ∈ gap, isBlank c) : Edit place raw (gap ++ raw)
  | trail {place : Option Section} {gap : List Char} (raw : List Char)
    (hgap : ∀ c ∈ gap, isBlank c) : Edit place raw (raw ++ gap)
  | widen {front gap gap' back : List Char} (h : HasInstruction (front ++ gap ++ back))
    (hfront : ';' ∉ front) (hgap : gap ≠ [] ∧ ∀ c ∈ gap, isBlank c)
    (hgap' : gap' ≠ [] ∧ ∀ c ∈ gap', isBlank c) :
    Edit (some .code) (front ++ gap ++ back) (front ++ gap' ++ back)
  | mnemonic {front word word' back : List Char} (h : HasInstruction (front ++ (word ++ back)))
    (hfront : ∀ c ∈ front, isBlank c) (hword : IsVisible word) (hback : IsWordEnd back)
    (hcase : word'.map Char.toLower = word.map Char.toLower) (hdot : word.head? ≠ some '.') :
    Edit (some .code) (front ++ (word ++ back)) (front ++ (word' ++ back))
  | kind {front word word' back : List Char} (hfront : ∀ c ∈ front, isBlank c)
    (hword : IsVisible word) (hback : IsWordEnd back)
    (hcase : word'.map Char.toLower = word.map Char.toLower) (hdot : word.head? ≠ some '.') :
    Edit (some .data) (front ++ (word ++ back)) (front ++ (word' ++ back))
  | comma {front word back : List Char} {c : Char}
    (h : HasInstruction (front ++ c :: (word ++ back))) (hfront : ';' ∉ front)
    (hfirst : words front ≠ []) (hc : isBlank c) (hword : IsVisible word) (hback : IsWordEnd back) :
    Edit (some .code) (front ++ c :: (word ++ back)) (front ++ c :: (word ++ ',' :: back))

/-- Each of `blocks` is a line of `raws` after any number of changes, made or taken back, behind any
number of lines without text. -/
inductive Restyled : Option Section → List (List Char) → List (List (List Char)) → Prop
  | nil {place : Option Section} : Restyled place [] []
  | cons {place : Option Section} {raws blanks : List (List Char)}
    {blocks : List (List (List Char))} {raw raw' : List Char}
    (hblanks : ∀ blank ∈ blanks, content blank = []) (hraw : Relation.EqvGen (Edit place) raw raw')
    (h : Restyled (openAfter place raw) raws blocks) :
    Restyled place (raw :: raws) ((blanks ++ [raw']) :: blocks)

def lineAfter : List (List (List Char)) → Nat → Nat
  | [], i => i
  | block :: _, 0 => block.length - 1
  | block :: blocks, i + 1 => block.length + lineAfter blocks i

def Recoding.lower (f : Nat → Nat) : Recoding := { line := f, word := List.map Char.toLower }

def Fault.lower (fault : Fault) : Fault := fault.recode (.lower id)

def seen (place : Option Section) (raw : List Char) : Option Section × Option Reading :=
  (directive? (content raw), (said? place raw).map (Reading.recode (.lower id)))

variable {raw raw' front back gap gap' word word' mnemonic mnemonic' : List Char}
  {texts texts' raws : List (List Char)} {blocks : List (List (List Char))} {c d : Char}
  {place : Option Section} {line k : Nat} {f : Nat → Nat}

/-! ### Words in another case -/

theorem mem_of_lower_eq (h : word'.map Char.toLower = word.map Char.toLower)
    (hd : d.isAlpha = false) (hmem : d ∈ word') : d ∈ word := by
  have hlower : d.toLower ∈ word.map Char.toLower := h ▸ List.mem_map_of_mem hmem
  obtain ⟨c, hc, hcd⟩ := List.mem_map.1 hlower
  exact eq_of_toLower_eq hd hcd ▸ hc

theorem head?_of_lower_eq (h : word'.map Char.toLower = word.map Char.toLower)
    (hd : d.isAlpha = false) (hhead : word'.head? = some d) : word.head? = some d := by
  have hlower := congrArg List.head? h
  rw [List.head?_map, List.head?_map, hhead, eq_comm, Option.map_some,
    Option.map_eq_some_iff] at hlower
  obtain ⟨c, hc, hcd⟩ := hlower
  exact eq_of_toLower_eq hd hcd ▸ hc

theorem getLast?_of_lower_eq (h : word'.map Char.toLower = word.map Char.toLower)
    (hd : d.isAlpha = false) (hlast : word'.getLast? = some d) : word.getLast? = some d := by
  have hlower := congrArg List.reverse h
  rw [← List.map_reverse, ← List.map_reverse] at hlower
  rw [← List.head?_reverse] at hlast ⊢
  exact head?_of_lower_eq hlower hd hlast

theorem IsVisible.of_lower_eq (hword : IsVisible word)
    (h : word'.map Char.toLower = word.map Char.toLower) : IsVisible word' := by
  refine ⟨⟨fun hnil => ?_, fun c hc => ?_⟩, fun hmem => ?_⟩
  · rw [hnil, eq_comm, List.map_nil, List.map_eq_nil_iff] at h
    exact hword.1.1 h
  · rw [← Bool.not_eq_true]
    intro hblank
    have hmem := mem_of_lower_eq h (isAlpha_of_isBlank hblank) hc
    rw [hword.1.2 c hmem] at hblank
    cases hblank
  · exact hword.2 (mem_of_lower_eq h (by decide) hmem)

/-! ### Words of a line -/

theorem takeWhile_append_of_not_mem (h : ';' ∉ front) (back : List Char) :
    (front ++ back).takeWhile (· != ';') = front ++ back.takeWhile (· != ';') :=
  List.takeWhile_append_of_pos fun _ hc => bne_iff_ne.2 fun hcomment => h (hcomment ▸ hc)

theorem head?_takeWhile_isBlank (h : IsWordEnd back) :
    ∀ c, (back.takeWhile (· != ';')).head? = some c → isBlank c := by
  intro c hc
  cases back with
  | nil => cases hc
  | cons d back =>
    rw [List.takeWhile_cons] at hc
    split at hc
    · next hd =>
      obtain rfl := Option.some.inj hc
      obtain hblank | rfl := h d rfl
      · exact hblank
      · exact absurd hd (by decide)
    · cases hc

theorem words_content_word (hword : IsVisible word) (hback : IsWordEnd back) :
    words (content (word ++ back)) = word :: words (back.takeWhile (· != ';')) := by
  rw [words_content, takeWhile_append_of_not_mem hword.2,
    words_word_append hword.1 (head?_takeWhile_isBlank hback)]

theorem words_content_gap (hfront : ';' ∉ front) (hgap : gap ≠ [] ∧ ∀ c ∈ gap, isBlank c) :
    words (content (front ++ gap ++ back)) = words front ++ words (back.takeWhile (· != ';')) := by
  have hcut : ';' ∉ front ++ gap := by
    rw [List.mem_append]
    exact fun hmem => hmem.elim hfront fun hmem => by cases hgap.2 _ hmem
  rw [words_content, takeWhile_append_of_not_mem hcut, words_append_gap hgap.1 hgap.2]

/-! ### One change -/

theorem seen_congr (h : content raw' = content raw) : seen place raw' = seen place raw := by
  rw [seen, seen, said?, said?, h]

theorem seen_instruction (h : IsInstruction raw mnemonic texts)
    (h' : IsInstruction raw' mnemonic' texts')
    (hcase : mnemonic'.map Char.toLower = mnemonic.map Char.toLower)
    (hos : operands texts' = operands texts) : seen (some .code) raw' = seen (some .code) raw := by
  rw [seen, seen, h.directive?, h'.directive?, h.said?, h'.said?, Reading.ofText, Reading.ofText,
    h.read, h'.read, hos]
  simp only [Option.map_some, Reading.recode, CodeLine.recode, Recoding.lower, hcase]

theorem HasInstruction.exists_isInstruction (h : HasInstruction raw) :
    ∃ mnemonic texts, IsInstruction raw mnemonic texts :=
  Assembly.exists_isInstruction h.1 h.2.1 h.2.2

theorem seen_widen (h : HasInstruction (front ++ gap ++ back)) (hfront : ';' ∉ front)
    (hgap : gap ≠ [] ∧ ∀ c ∈ gap, isBlank c) (hgap' : gap' ≠ [] ∧ ∀ c ∈ gap', isBlank c) :
    seen (some .code) (front ++ gap' ++ back) = seen (some .code) (front ++ gap ++ back) := by
  obtain ⟨mnemonic, texts, hraw⟩ := h.exists_isInstruction
  have hwords : words (content (front ++ gap' ++ back)) = mnemonic :: texts := by
    rw [← hraw.words, words_content_gap hfront hgap, words_content_gap hfront hgap']
  exact seen_instruction hraw (isInstruction_of_words hwords hraw.plain hraw.last) rfl rfl

theorem seen_mnemonic (h : HasInstruction (word ++ back)) (hword : IsVisible word)
    (hback : IsWordEnd back) (hcase : word'.map Char.toLower = word.map Char.toLower)
    (hdot : word.head? ≠ some '.') :
    seen (some .code) (word' ++ back) = seen (some .code) (word ++ back) := by
  obtain ⟨mnemonic, texts, hraw⟩ := h.exists_isInstruction
  obtain ⟨rfl, rfl⟩ := List.cons.inj (hraw.words.symm.trans (words_content_word hword hback))
  have hwords := words_content_word (hword.of_lower_eq hcase) hback
  have hplain : directive? word' = none :=
    directive?_eq_none fun hhead => hdot (head?_of_lower_eq hcase (by decide) hhead)
  refine seen_instruction hraw (isInstruction_of_words hwords hplain fun last hlast hcolon => ?_)
    hcase rfl
  generalize words (back.takeWhile (· != ';')) = texts at hraw hlast
  cases texts with
  | nil =>
    obtain rfl := Option.some.inj hlast
    exact hraw.last mnemonic rfl (getLast?_of_lower_eq hcase (by decide) hcolon)
  | cons text texts => exact hraw.last last hlast hcolon

theorem content_word (hword : IsVisible word) (back : List Char) :
    content (word ++ back) = word ++ trimEndWhile isBlank (back.takeWhile (· != ';')) := by
  rw [content, takeWhile_append_of_not_mem hword.2, trim_word_append hword.1]

theorem read?_lower (hword : IsVisible word) (hback : ∀ c, back.head? = some c → isBlank c)
    (hcase : word'.map Char.toLower = word.map Char.toLower) :
    (Declaration.read? (word' ++ back)).map (Declaration.recode (.lower id)) =
      (Declaration.read? (word ++ back)).map (Declaration.recode (.lower id)) := by
  rw [Declaration.read?, Declaration.read?, splitAtBlank?_word hword.1 hback,
    splitAtBlank?_word (hword.of_lower_eq hcase).1 hback]
  cases back.tail? with
  | none => rfl
  | some rest =>
    change Option.map _ (splitAtBlank? (trimStart rest) >>= _) =
      Option.map _ (splitAtBlank? (trimStart rest) >>= _)
    cases splitAtBlank? (trimStart rest) with
    | none => rfl
    | some named =>
      change Option.map _ (if _ then none else some (Declaration.mk word' named.1 (trim named.2))) =
        Option.map _ (if _ then none else some (Declaration.mk word named.1 (trim named.2)))
      split
      · rfl
      · simp only [Option.map_some, Declaration.recode, Recoding.lower, hcase]

theorem seen_declaration (hword : IsVisible word) (hdot : word.head? ≠ some '.') :
    seen (some .data) (word ++ back) = (none, some (.declaration
      ((Declaration.read? (content (word ++ back))).map (Declaration.recode (.lower id))))) := by
  have hhead : (content (word ++ back)).head? = word.head? := by
    rw [content_word hword, List.head?_append_of_ne_nil _ hword.1.1]
  have hplain : directive? (content (word ++ back)) = none :=
    directive?_eq_none (hhead ▸ hdot)
  have hne : content (word ++ back) ≠ [] := by
    rw [content_word hword]
    exact List.append_ne_nil_of_left_ne_nil hword.1.1 _
  rw [seen, said?, if_neg (by simp [hne, hplain]), hplain]
  rfl

theorem seen_kind (hword : IsVisible word) (hback : IsWordEnd back)
    (hcase : word'.map Char.toLower = word.map Char.toLower) (hdot : word.head? ≠ some '.') :
    seen (some .data) (word' ++ back) = seen (some .data) (word ++ back) := by
  have hword' := hword.of_lower_eq hcase
  have hdot' : word'.head? ≠ some '.' :=
    fun hhead => hdot (head?_of_lower_eq hcase (by decide) hhead)
  have hrest (c : Char)
      (hc : (trimEndWhile isBlank (back.takeWhile (· != ';'))).head? = some c) : isBlank c :=
    head?_takeWhile_isBlank hback c (head?_trimEndWhile hc)
  rw [seen_declaration hword hdot, seen_declaration hword' hdot', content_word hword,
    content_word hword', read?_lower hword hrest hcase]

theorem operands_comma (texts texts' : List (List Char)) :
    operands (texts ++ (word ++ [',']) :: texts') = operands (texts ++ word :: texts') := by
  have hcomma : ∀ c ∈ [','], (c == ',') = true := List.forall_mem_singleton.2 rfl
  rw [operands, operands, List.map_append, List.map_append, List.map_cons, List.map_cons,
    trimEndWhile_append_of_forall hcomma]

theorem words_content_operand (hfront : ';' ∉ front) (hc : isBlank c) (hword : IsVisible word)
    (hback : IsWordEnd back) : words (content (front ++ c :: (word ++ back))) =
      words front ++ word :: words (back.takeWhile (· != ';')) := by
  have hgap : [c] ≠ [] ∧ ∀ x ∈ [c], isBlank x :=
    ⟨List.cons_ne_nil _ _, List.forall_mem_singleton.2 hc⟩
  rw [List.append_cons, words_content_gap hfront hgap, takeWhile_append_of_not_mem hword.2,
    words_word_append hword.1 (head?_takeWhile_isBlank hback)]

theorem seen_comma (h : HasInstruction (front ++ c :: (word ++ back))) (hfront : ';' ∉ front)
    (hfirst : words front ≠ []) (hc : isBlank c) (hword : IsVisible word) (hback : IsWordEnd back) :
    seen (some .code) (front ++ c :: (word ++ ',' :: back)) =
      seen (some .code) (front ++ c :: (word ++ back)) := by
  obtain ⟨mnemonic, texts, hraw⟩ := h.exists_isInstruction
  obtain ⟨first, others, hothers⟩ := List.exists_cons_of_ne_nil hfirst
  have hcomma : IsVisible (word ++ [',']) := by
    refine ⟨⟨List.append_ne_nil_of_left_ne_nil hword.1.1 _, ?_⟩, ?_⟩
    · exact List.forall_mem_append.2 ⟨hword.1.2, List.forall_mem_singleton.2 rfl⟩
    · simpa using hword.2
  have hwords := words_content_operand hfront hc hcomma hback
  rw [List.append_assoc, List.singleton_append, hothers, List.cons_append] at hwords
  have hsplit := hraw.words.symm.trans (words_content_operand hfront hc hword hback)
  rw [hothers, List.cons_append] at hsplit
  obtain ⟨rfl, rfl⟩ := List.cons.inj hsplit
  have hends := hraw.last
  refine seen_instruction hraw ?_ rfl (operands_comma others _)
  refine isInstruction_of_words hwords hraw.plain fun last hlast hcolon => ?_
  rw [← List.cons_append, List.getLast?_append_of_ne_nil _ (List.cons_ne_nil _ _)] at hlast hends
  cases hrest : words (back.takeWhile (· != ';')) with
  | nil =>
    rw [hrest] at hlast
    obtain rfl : word ++ [','] = last := Option.some.inj hlast
    rw [List.getLast?_concat] at hcolon
    cases hcolon
  | cons text rest =>
    rw [hrest] at hlast hends
    exact hends last hlast hcolon

theorem Edit.seen_eq (h : Edit place raw raw') : seen place raw' = seen place raw := by
  cases h with
  | comment _ text => exact seen_congr (content_append_comment raw text)
  | indent _ hgap => exact seen_congr (content_blanks_append hgap raw)
  | trail _ hgap => exact seen_congr (content_append_blanks hgap raw)
  | widen h hfront hgap hgap' => exact seen_widen h hfront hgap hgap'
  | mnemonic h hfront hword hback hcase hdot =>
    rw [seen_congr (content_blanks_append hfront _), seen_congr (content_blanks_append hfront _)]
    rw [HasInstruction, content_blanks_append hfront] at h
    exact seen_mnemonic h hword hback hcase hdot
  | kind hfront hword hback hcase hdot =>
    rw [seen_congr (content_blanks_append hfront _), seen_congr (content_blanks_append hfront _)]
    exact seen_kind hword hback hcase hdot
  | comma h hfront hfirst hc hword hback => exact seen_comma h hfront hfirst hc hword hback

theorem seen_eq_of_eqvGen (h : Relation.EqvGen (Edit place) raw raw') :
    seen place raw' = seen place raw := by
  induction h with
  | rel raw raw' h => exact h.seen_eq
  | refl raw => rfl
  | symm raw raw' _ ih => exact ih.symm
  | trans raw raw' raw'' _ _ ih ih' => exact ih'.trans ih

/-! ### Whole sources -/

theorem isFaithful_lower {names : List (List Char)} : (Recoding.lower f).IsFaithful names := by
  refine ⟨fun _ _ _ _ h => h, fun word => ?_⟩
  rw [Recoding.lower, List.map_map]
  exact List.map_congr_left fun c _ => toLower_toLower c

theorem recode_lower : Reading.recode (.lower f) = Reading.recode (.lower id) := by
  funext r
  cases r with
  | outside => rfl
  | declaration d => rfl
  | code code => cases code <;> rfl

theorem Fault.recode_lower (fault : Fault) :
    fault.recode (.lower f) = ⟨f fault.line, fault.lower.cause⟩ := by
  obtain ⟨line, cause⟩ := fault
  cases cause <;> rfl

theorem clausesFrom_of_blanks (h : ∀ raw ∈ raws, content raw = []) :
    clausesFrom line place raws = [] ∧ raws.foldl openAfter place = place := by
  induction raws generalizing line with
  | nil => exact ⟨rfl, rfl⟩
  | cons raw raws ih =>
    obtain ⟨hraw, hraws⟩ := List.forall_mem_cons.1 h
    rw [clausesFrom_cons, clausesFrom_singleton, said?_of_blank hraw, List.foldl_cons,
      openAfter_of_blank hraw]
    exact ih hraws

theorem Restyled.clauses_eq {trailing : List (List Char)} (h : Restyled place raws blocks)
    (htrailing : ∀ raw ∈ trailing, content raw = [])
    (hline : ∀ i, f (k + i) = line + lineAfter blocks i) :
    (clausesFrom line place (blocks.flatten ++ trailing)).map (Clause.recode (.lower id)) =
      (clausesFrom k place raws).map (Clause.recode (.lower f)) := by
  induction h generalizing line k with
  | nil =>
    rw [List.flatten_nil, List.nil_append, (clausesFrom_of_blanks htrailing).1]
    rfl
  | @cons place raws blanks blocks raw raw' hblanks hraw _ ih =>
    obtain ⟨hnone, hopen⟩ : clausesFrom line place blanks = [] ∧
        blanks.foldl openAfter place = place := clausesFrom_of_blanks hblanks
    obtain ⟨hdirective, hsame⟩ := Prod.mk.inj (seen_eq_of_eqvGen hraw)
    have hopens : openAfter place raw' = openAfter place raw := by
      rw [openAfter, openAfter, hdirective]
    have hhere : f k = line + blanks.length := by
      have hfirst := hline 0
      rwa [lineAfter, List.length_append, List.length_singleton, Nat.add_sub_cancel] at hfirst
    have hrest (i : Nat) : f (k + 1 + i) = line + blanks.length + 1 + lineAfter blocks i := by
      have hnext := hline (i + 1)
      rw [lineAfter, List.length_append, List.length_singleton] at hnext
      rw [Nat.add_assoc, Nat.add_comm 1, hnext]
      omega
    have hclause :
        (clausesFrom (line + blanks.length) place [raw']).map (Clause.recode (.lower id)) =
          (clausesFrom k place [raw]).map (Clause.recode (.lower f)) := by
      rw [map_recode_clausesFrom, map_recode_clausesFrom, hsame, recode_lower, ← hhere]
      rfl
    have hlines : clausesFrom k place (raw :: raws) = _ := clausesFrom_cons
    rw [List.flatten_cons, List.append_assoc, List.append_assoc, clausesFrom_append, hnone, hopen,
      List.nil_append, List.singleton_append, clausesFrom_cons, hopens, List.map_append, hclause,
      ih hrest, hlines, List.map_append]

theorem Restyled.assemble_eq {trailing : List (List Char)} (h : Restyled none raws blocks)
    (htrailing : ∀ raw ∈ trailing, content raw = [])
    (hline : ∀ i, f (1 + i) = 1 + lineAfter blocks i) :
    (assemble (clausesFrom 1 none (blocks.flatten ++ trailing))).mapError Fault.lower =
      (assemble (clausesFrom 1 none raws)).mapError
        fun fault => ⟨f fault.line, fault.lower.cause⟩ := by
  have hfault : (fun fault : Fault => Fault.mk (f fault.line) fault.lower.cause) =
      Fault.recode (.lower f) := funext fun fault => fault.recode_lower.symm
  have hlower : Fault.lower = Fault.recode (.lower id) := rfl
  rw [hfault, hlower, ← assemble_recode isFaithful_lower, ← assemble_recode isFaithful_lower,
    h.clauses_eq htrailing hline]

theorem lineAfter_of_length_eq_one (h : ∀ block ∈ blocks, block.length = 1) (i : Nat) :
    lineAfter blocks i = i := by
  induction blocks generalizing i with
  | nil => rfl
  | cons block blocks ih =>
    obtain ⟨hblock, hblocks⟩ := List.forall_mem_cons.1 h
    cases i with
    | zero => rw [lineAfter, hblock]
    | succ i => rw [lineAfter, hblock, ih hblocks, Nat.add_comm]

/-- Changes to the lines of a source and lines without text between them leave the image as it is,
and a fault as it is but for the line, which moves with the text, and the case of the word that it
quotes. The line is the same where no line is put in between. -/
theorem translate_restyled {source source' : List Char} {trailing : List (List Char)}
    (h : Restyled none (lines source) blocks) (htrailing : ∀ raw ∈ trailing, content raw = [])
    (h' : lines source' = blocks.flatten ++ trailing) :
    (translate source').mapError Fault.lower = ((translate source).mapError fun fault =>
      ⟨lineAfter blocks (fault.line - 1) + 1, fault.lower.cause⟩) ∧
    ((∀ block ∈ blocks, block.length = 1) →
      (translate source').mapError Fault.lower = (translate source).mapError Fault.lower) := by
  rw [translate_eq_assemble, translate_eq_assemble, h']
  constructor
  · refine h.assemble_eq (f := fun line => lineAfter blocks (line - 1) + 1) htrailing fun i => ?_
    rw [Nat.add_sub_cancel_left, Nat.add_comm]
  · intro hone
    refine h.assemble_eq (f := id) htrailing fun i => ?_
    rw [lineAfter_of_length_eq_one hone]
    rfl

theorem translate_restyled_inc :
    translate ".code\r\n\tINC  r1, ; up".toList =
      .ok ⟨[⟨0, .number, [1234]⟩, ⟨1, .number, [1234]⟩], [⟨0, .inc, [0]⟩]⟩ ∧
    (translate "; up\n.code\ninc r1\n\njmp x".toList).mapError Fault.lower =
      .error ⟨5, .unresolvedSymbol "x".toList⟩ := by
  have hblank (c : Char) (hc : isBlank c) : [c] ≠ [] ∧ ∀ x ∈ [c], isBlank x :=
    ⟨List.cons_ne_nil _ _, List.forall_mem_singleton.2 hc⟩
  have hend : Relation.EqvGen (Edit none) ".code".toList ".code\r".toList :=
    .rel _ _ (@Edit.trail none ['\r'] ".code".toList (hblank '\r' rfl).2)
  have hmnemonic : Edit (some .code) "inc r1".toList "INC r1".toList :=
    @Edit.mnemonic [] "inc".toList "INC".toList " r1".toList (by decide) nofun (by decide)
      (by decide) rfl (by decide)
  have hwiden : Edit (some .code) "INC r1".toList "INC  r1".toList :=
    @Edit.widen "INC".toList " ".toList "  ".toList "r1".toList (by decide) (by decide)
      (hblank ' ' rfl) ⟨List.cons_ne_nil _ _, List.all_eq_true.1 rfl⟩
  have hcomma : Edit (some .code) "INC  r1".toList "INC  r1,".toList :=
    @Edit.comma "INC ".toList "r1".toList [] ' ' (by decide) (by decide) (by decide) rfl (by decide)
      (by decide)
  have hindent : Edit (some .code) "INC  r1,".toList "\tINC  r1,".toList :=
    @Edit.indent _ ['\t'] "INC  r1,".toList (hblank '\t' rfl).2
  have htrail : Edit (some .code) "\tINC  r1,".toList "\tINC  r1, ".toList :=
    @Edit.trail _ [' '] "\tINC  r1,".toList (hblank ' ' rfl).2
  have hcomment : Edit (some .code) "\tINC  r1, ".toList "\tINC  r1, ; up".toList :=
    .comment _ " up".toList
  have hline : Relation.EqvGen (Edit (some .code)) "inc r1".toList "\tINC  r1, ; up".toList :=
    .trans _ _ _ (.rel _ _ hmnemonic) <| .trans _ _ _ (.rel _ _ hwiden) <|
      .trans _ _ _ (.rel _ _ hcomma) <| .trans _ _ _ (.rel _ _ hindent) <|
        .trans _ _ _ (.rel _ _ htrail) (.rel _ _ hcomment)
  have hnone : ∀ raw ∈ ([] : List (List Char)), content raw = [] := nofun
  constructor
  · have hrestyled : Restyled none (lines ".code\ninc r1".toList)
        [[] ++ [".code\r".toList], [] ++ ["\tINC  r1, ; up".toList]] :=
      .cons hnone hend (.cons hnone hline .nil)
    have hsame : (translate ".code\r\n\tINC  r1, ; up".toList).mapError Fault.lower =
        (translate ".code\ninc r1".toList).mapError Fault.lower :=
      (translate_restyled hrestyled hnone rfl).2 (by decide)
    exact mapError_eq_ok_iff.1 hsame
  · have hempty : ∀ raw ∈ [[]], content raw = [] := by decide
    have hfirst : ∀ raw ∈ ["; up".toList], content raw = [] := by decide
    have hrestyled : Restyled none (lines ".code\ninc r1\njmp x".toList)
        [["; up".toList] ++ [".code".toList], [] ++ ["inc r1".toList], [[]] ++ ["jmp x".toList]] :=
      .cons hfirst (.refl _) (.cons hnone (.refl _) (.cons hempty (.refl _) .nil))
    exact (translate_restyled hrestyled hnone rfl).1

end TickMachine.Assembly
