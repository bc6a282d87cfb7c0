import TickMachine.Proofs.Assembly.Frames
import TickMachine.Proofs.Assembly.Recoding

/-! Other names for the labels and the variables of a source. Names have no meaning of their own: as
long as no number, no register and no separator is taken for one, and different names stay
different, the image is the same and a fault is the same but for the name in it. -/

namespace TickMachine.Assembly

open Text

def namesIn (source : List Char) : List (List Char) := namesOf (clausesFrom 1 none (lines source))

def renameWord (ρ : List Char → List Char) (word : List Char) : List Char :=
  match Operand.read (trimEndWhile (· == ',') word) with
  | .value _ => word
  | .symbol name => if name = [] then word else ρ name ++ word.drop name.length

/-- The text of a line in other names: the second word of a declaration, the only one of a label,
and the symbols behind the first word of an instruction. -/
def renameText (ρ : List Char → List Char) (text : List Char) : Reading → List Char
  | .declaration (some _) => mapFirst isBlank id (mapFirst isBlank ρ id) text
  | .code (.label _) => mapFirst isMark ρ id text
  | .code (.instruction _ _) => mapFirst isBlank id (mapRuns isBlank (renameWord ρ) []) text
  | _ => text

def renameLine (ρ : List Char → List Char) (place : Option Section) (raw : List Char) : List Char :=
  match said? place raw with
  | none => raw
  | some r => renameText ρ (raw.takeWhile (· != ';')) r ++ raw.dropWhile (· != ';')

def renameLines (ρ : List Char → List Char) (place : Option Section) :
    List (List Char) → List (List Char)
  | [] => []
  | raw :: raws => renameLine ρ place raw :: renameLines ρ (openAfter place raw) raws

def rename (ρ : List Char → List Char) (source : List Char) : List Char :=
  ['\n'].intercalate (renameLines ρ none (lines source))

def Recoding.ofNames (ρ : List Char → List Char) : Recoding := { name := ρ }

variable {ρ : List Char → List Char} {raw text text' name word mnemonic : List Char}
  {texts raws : List (List Char)} {place : Option Section} {line : Nat} {c : Char} {d : Declaration}
  {r : Reading}

/-! ### Operands -/

def IsRenamed (ρ : List Char → List Char) (word : List Char) : Prop :=
  ∀ name, Operand.read (trimEndWhile (· == ',') word) = .symbol name → name ≠ [] → IsName (ρ name)

theorem renameWord_cases (ρ : List Char → List Char) (word : List Char) :
    (renameWord ρ word = word ∧ (trimEndWhile (· == ',') word = [] ∨
      ∃ v, Operand.read (trimEndWhile (· == ',') word) = .value v)) ∨
    ∃ name commas, word = name ++ commas ∧ (∀ c ∈ commas, (c == ',') = true) ∧
      trimEndWhile (· == ',') word = name ∧ name ≠ [] ∧ Operand.read name = .symbol name ∧
      renameWord ρ word = ρ name ++ commas := by
  obtain ⟨commas, hword, hcommas⟩ := exists_trimEndWhile (· == ',') word
  rw [renameWord]
  cases hread : Operand.read (trimEndWhile (· == ',') word) with
  | value v => exact .inl ⟨rfl, .inr ⟨v, rfl⟩⟩
  | symbol name =>
    obtain rfl := eq_of_read_eq_symbol hread
    by_cases hne : trimEndWhile (· == ',') word = []
    · exact .inl ⟨if_pos hne, .inl hne⟩
    · refine .inr ⟨_, commas, hword, hcommas, rfl, hne, hread, ?_⟩
      simp only [if_neg hne]
      have hdrop := congrArg (List.drop (trimEndWhile (· == ',') word).length) hword
      rw [hdrop, List.drop_left]

theorem operands_renameWord (h : IsRenamed ρ word) :
    operands [renameWord ρ word] = (operands [word]).map (Operand.recode (.ofNames ρ)) := by
  obtain ⟨hstays, hcore⟩ | ⟨name, commas, hword, hcommas, hcore, hne, hread, hrename⟩ :=
    renameWord_cases ρ word
  · rw [hstays, operands_singleton]
    obtain hnil | ⟨v, hv⟩ := hcore
    · rw [if_pos hnil]
      rfl
    · split
      · rfl
      · rw [hv]
        rfl
  · have hname : IsName (ρ name) := h name (hcore ▸ hread) hne
    rw [hrename, operands_singleton, operands_singleton, hname.trimEndWhile_append hcommas, hcore,
      if_neg hname.ne_nil, if_neg hne, hname.read, hread]
    rfl

theorem operands_map_renameWord (h : ∀ text ∈ texts, IsRenamed ρ text) :
    operands (texts.map (renameWord ρ)) =
      (operands texts).map (Operand.recode (.ofNames ρ)) := by
  induction texts with
  | nil => rfl
  | cons text texts ih =>
    obtain ⟨htext, htexts⟩ := List.forall_mem_cons.1 h
    have hcons (text : List Char) (texts : List (List Char)) :
        operands (text :: texts) = operands [text] ++ operands texts := operands_append [text] texts
    rw [List.map_cons, hcons, hcons text, operands_renameWord htext, ih htexts, List.map_append]

theorem mem_renameWord (h : IsRenamed ρ word) (hc : c ∈ renameWord ρ word) :
    c ∈ word ∨ isPlain c := by
  obtain ⟨hstays, -⟩ | ⟨name, commas, hword, -, hcore, hne, hread, hrename⟩ :=
    renameWord_cases ρ word
  · exact .inl (hstays ▸ hc)
  · have hname : IsName (ρ name) := h name (hcore ▸ hread) hne
    rw [hrename, List.mem_append] at hc
    obtain hc | hc := hc
    · exact .inr (hname.isPlainText.2 c hc)
    · exact .inl (hword ▸ List.mem_append_right _ hc)

theorem renameWord_eq_nil_iff (h : IsRenamed ρ word) : renameWord ρ word = [] ↔ word = [] := by
  obtain ⟨hstays, -⟩ | ⟨name, commas, hword, -, hcore, hne, hread, hrename⟩ :=
    renameWord_cases ρ word
  · rw [hstays]
  · have hname : IsName (ρ name) := h name (hcore ▸ hread) hne
    rw [hrename, hword]
    simp [hname.ne_nil, hne]

theorem getLast?_renameWord (h : IsRenamed ρ word)
    (hc : (renameWord ρ word).getLast? = some ':') : word.getLast? = some ':' := by
  obtain ⟨hstays, -⟩ | ⟨name, commas, -, hcommas, hcore, hne, hread, hrename⟩ :=
    renameWord_cases ρ word
  · exact hstays ▸ hc
  · have hname : IsName (ρ name) := h name (hcore ▸ hread) hne
    obtain hmem | hmem := List.mem_append.1 (hrename ▸ List.mem_of_getLast? hc)
    · exact absurd (hname.isPlainText.2 _ hmem) (by decide)
    · exact absurd (hcommas _ hmem) (by decide)

/-! ### Lines -/

structure Renames (ρ : List Char → List Char) (place : Option Section)
    (text text' : List Char) : Prop where
  ne_nil : content text' ≠ []
  plain : directive? (content text') = none
  reading : Reading.ofText (content text') place =
    (Reading.ofText (content text) place).recode (.ofNames ρ)
  chars : ∀ c ∈ text', c ∈ text ∨ isPlain c

theorem semicolon_not_mem_of_chars (h : ';' ∉ text) (hchars : ∀ c ∈ text', c ∈ text ∨ isPlain c) :
    ';' ∉ text' :=
  fun hmem => (hchars _ hmem).elim h (by decide)

theorem isRenamed_nil : IsRenamed ρ [] :=
  fun _ hread hne => absurd (eq_of_read_eq_symbol hread) hne

theorem isRenamed_of_mem_splitOn {back : List Char} (h : ∀ word ∈ words back, IsRenamed ρ word) :
    ∀ piece ∈ splitOn isBlank back, IsRenamed ρ piece := by
  intro piece hpiece
  by_cases hnil : piece = []
  · exact hnil ▸ isRenamed_nil
  · exact h piece (List.mem_filter.2 ⟨hpiece, by simpa using hnil⟩)

theorem words_mapRuns_renameWord {back : List Char} (h : ∀ word ∈ words back, IsRenamed ρ word) :
    words (mapRuns isBlank (renameWord ρ) [] back) = (words back).map (renameWord ρ) := by
  have hpieces := isRenamed_of_mem_splitOn h
  refine words_mapRuns (fun piece hpiece c hc => ?_)
    fun piece hpiece => renameWord_eq_nil_iff (hpieces piece hpiece)
  obtain hc | hc := mem_renameWord (hpieces piece hpiece) hc
  · exact forall_mem_splitOn back piece hpiece c hc
  · exact isBlank_of_isPlain hc

theorem mem_mapRuns_renameWord {back : List Char} (h : ∀ word ∈ words back, IsRenamed ρ word) :
    ∀ c ∈ mapRuns isBlank (renameWord ρ) [] back, c ∈ back ∨ isPlain c := by
  have hpieces := isRenamed_of_mem_splitOn h
  refine forall_mem_mapRuns nofun (fun piece hpiece c hc => ?_) fun c hc => .inl hc
  exact (mem_renameWord (hpieces piece hpiece) hc).imp_left fun hc => mem_of_mem_splitOn hpiece hc

theorem last_map_renameWord (hrenamed : ∀ word ∈ texts, IsRenamed ρ word)
    (h : ∀ word, (mnemonic :: texts).getLast? = some word → word.getLast? ≠ some ':') :
    ∀ word, (mnemonic :: texts.map (renameWord ρ)).getLast? = some word →
      word.getLast? ≠ some ':' := by
  intro last hlast
  cases texts with
  | nil => exact h last hlast
  | cons text texts =>
    rw [List.map_cons, List.getLast?_cons_cons, ← List.map_cons, List.getLast?_map,
      Option.map_eq_some_iff] at hlast
    obtain ⟨word, hword, rfl⟩ := hlast
    intro hcolon
    have hrenamed := hrenamed word (List.mem_of_getLast? hword)
    exact h word hword (getLast?_renameWord hrenamed hcolon)

theorem renames_instruction (h : IsInstruction text mnemonic texts) (hcomment : ';' ∉ text)
    (hrenamed : ∀ word ∈ texts, IsRenamed ρ word) : Renames ρ (some .code) text
      (mapFirst isBlank id (mapRuns isBlank (renameWord ρ) []) text) := by
  have hwords := h.words
  rw [content_eq_trim hcomment, words_trim] at hwords
  obtain ⟨front, back, rfl, hfront, hword, hback, rfl⟩ := exists_of_words_eq_cons hwords
  have hnil : renameWord ρ [] = [] := (renameWord_eq_nil_iff isRenamed_nil).2 rfl
  have hhead := head?_mapRuns hnil hback
  have hwords' := words_mapRuns_renameWord hrenamed
  have hmem := mem_mapRuns_renameWord hrenamed
  rw [mapFirst_eq hfront hword.1 hword.2 hback, id_eq]
  generalize mapRuns isBlank (renameWord ρ) [] back = back' at hhead hwords' hmem ⊢
  have hchars : ∀ c ∈ front ++ (mnemonic ++ back'),
      c ∈ front ++ (mnemonic ++ back) ∨ isPlain c := by
    simp only [List.mem_append]
    rintro c (hc | hc | hc)
    · exact .inl (.inl hc)
    · exact .inl (.inr (.inl hc))
    · exact (hmem c hc).imp_left fun hc => .inr (.inr hc)
  have hline : words (content (front ++ (mnemonic ++ back'))) =
      mnemonic :: (words back).map (renameWord ρ) := by
    rw [content_eq_trim (semicolon_not_mem_of_chars hcomment hchars), words_trim,
      words_blanks_append hfront, words_word_append hword (hhead ▸ hback), hwords']
  have h' := isInstruction_of_words hline h.plain (last_map_renameWord hrenamed h.last)
  refine ⟨content_ne_nil hline, h'.directive?, ?_, hchars⟩
  rw [Reading.ofText, Reading.ofText, h'.read, h.read, operands_map_renameWord hrenamed]
  rfl

theorem renames_label (h : CodeLine.read (content text) = .label name) (hcomment : ';' ∉ text)
    (hname : IsName name) (hname' : IsName (ρ name)) :
    Renames ρ (some .code) text (mapFirst isMark ρ id text) := by
  rw [content_eq_trim hcomment] at h
  obtain ⟨w, rfl⟩ := exists_fill_eq h hname.ne_nil
  have hchars : ∀ c ∈ w.fill (ρ name), c ∈ w.fill name ∨ isPlain c := by
    simp only [LabelFrame.fill, LabelFrame.label, List.mem_append]
    intro c hc
    have hplain := hname'.isPlainText.2 c
    tauto
  have hcontent : content (w.fill (ρ name)) = w.label (ρ name) := by
    rw [content_eq_trim (semicolon_not_mem_of_chars hcomment hchars), w.trim_fill hname']
  rw [w.mapFirst_fill hname]
  refine ⟨?_, ?_, ?_, hchars⟩
  · intro hnil
    have hends := w.getLast?_label (ρ name)
    rw [← hcontent, hnil] at hends
    cases hends
  · rw [hcontent, w.directive?_label hname']
  · rw [hcontent, content_eq_trim hcomment, Reading.ofText, Reading.ofText, h, w.read_label hname']
    rfl

theorem renames_declaration (h : Declaration.read? (content text) = some d) (hcomment : ';' ∉ text)
    (hplain : directive? (content text) = none) (hname' : IsName (ρ d.name)) :
    Renames ρ (some .data) text (mapFirst isBlank id (mapFirst isBlank ρ id) text) := by
  rw [content_eq_trim hcomment] at h
  obtain ⟨hname, v, rfl⟩ := exists_fill_eq_of_read? h
  have hword := hname'.isPlainText.isWord
  have hchars : ∀ c ∈ v.fill (ρ d.name), c ∈ v.fill d.name ∨ isPlain c := by
    simp only [DeclarationFrame.fill, List.mem_append]
    intro c hc
    have hplain := hname'.isPlainText.2 c
    tauto
  have hcomment' := semicolon_not_mem_of_chars hcomment hchars
  have hread := v.read?_fill hword
  rw [v.mapFirst_fill hname]
  refine ⟨?_, ?_, ?_, hchars⟩
  · intro hnil
    rw [← content_eq_trim hcomment', hnil] at hread
    cases hread
  · rw [v.directive?_fill hcomment', ← v.directive?_fill hcomment, hplain]
  · rw [content_eq_trim hcomment', content_eq_trim hcomment, Reading.ofText, Reading.ofText, hread,
      v.read?_fill hname]
    rfl

/-! ### Whole sources -/

theorem isRenamed_of_mem_names {os : List Operand} (hos : os = operands texts)
    (hnames : ∀ name ∈ Reading.names (.code (.instruction mnemonic os)), IsName (ρ name)) :
    ∀ word ∈ texts, IsRenamed ρ word := by
  intro word hword name hread hne
  obtain rfl := eq_of_read_eq_symbol hread
  refine hnames _ (List.mem_filterMap.2 ⟨.symbol (trimEndWhile (· == ',') word), ?_, rfl⟩)
  rw [hos, ← hread]
  refine List.mem_map_of_mem (List.mem_filter.2 ⟨List.mem_map_of_mem hword, ?_⟩)
  simpa using hne

theorem renames_of_said? (h : said? place text = some r) (hcomment : ';' ∉ text)
    (hnames : ∀ name ∈ r.names, IsName name ∧ IsName (ρ name)) :
    Renames ρ place text (renameText ρ text r) := by
  obtain ⟨hne, hplain, rfl⟩ := said?_eq_some h
  match place with
  | none => exact ⟨hne, hplain, rfl, fun c hc => .inl hc⟩
  | some .data =>
    cases hread : Declaration.read? (content text) with
    | none =>
      rw [Reading.ofText, hread]
      refine ⟨hne, hplain, ?_, fun c hc => .inl hc⟩
      simp only [renameText, Reading.ofText, hread]
      rfl
    | some d =>
      rw [Reading.ofText, hread] at hnames ⊢
      exact renames_declaration hread hcomment hplain (hnames d.name (List.mem_singleton_self _)).2
  | some .code =>
    cases hread : CodeLine.read (content text) with
    | label name =>
      rw [Reading.ofText, hread] at hnames ⊢
      obtain ⟨hname, hname'⟩ := hnames name (List.mem_singleton_self _)
      exact renames_label hread hcomment hname hname'
    | instruction mnemonic os =>
      obtain ⟨texts, htext, rfl⟩ := exists_isInstruction_of_read hne hplain hread
      rw [Reading.ofText, hread] at hnames ⊢
      exact renames_instruction htext hcomment
        (isRenamed_of_mem_names rfl fun name hname => (hnames name hname).2)

theorem said?_takeWhile (raw : List Char) :
    said? place (raw.takeWhile (· != ';')) = said? place raw := by
  rw [said?, said?, content_takeWhile]

theorem renames_takeWhile (h : said? place raw = some r)
    (hnames : ∀ name ∈ r.names, IsName name ∧ IsName (ρ name)) :
    Renames ρ place (raw.takeWhile (· != ';')) (renameText ρ (raw.takeWhile (· != ';')) r) := by
  have hcomment : ';' ∉ raw.takeWhile (· != ';') := by
    intro hmem
    exact absurd (List.all_eq_true.1 List.all_takeWhile _ hmem) (by decide)
  exact renames_of_said? ((said?_takeWhile raw).trans h) hcomment hnames

theorem renameLine_eq (h : said? place raw = some r) : renameLine ρ place raw =
    renameText ρ (raw.takeWhile (· != ';')) r ++ raw.dropWhile (· != ';') := by
  rw [renameLine, h]

theorem said?_renameLine
    (hnames : ∀ r, said? place raw = some r → ∀ name ∈ r.names, IsName name ∧ IsName (ρ name)) :
    said? place (renameLine ρ place raw) =
      (said? place raw).map (Reading.recode (.ofNames ρ)) ∧
    openAfter place (renameLine ρ place raw) = openAfter place raw := by
  cases hsaid : said? place raw with
  | none =>
    rw [renameLine, hsaid]
    exact ⟨hsaid, rfl⟩
  | some r =>
    have hrenames := renames_takeWhile hsaid (hnames r hsaid)
    obtain ⟨-, hplain, rfl⟩ := said?_eq_some hsaid
    have hcontent := content_append_dropWhile
      (renameText ρ (raw.takeWhile (· != ';')) (.ofText (content raw) place)) raw
    have hreading := hrenames.reading
    rw [content_takeWhile] at hreading
    rw [renameLine_eq hsaid, said?, openAfter, openAfter, hcontent, hrenames.plain, hplain,
      if_neg (by simp [hrenames.ne_nil]), hreading]
    exact ⟨rfl, rfl⟩

theorem mem_renameLine
    (hnames : ∀ r, said? place raw = some r → ∀ name ∈ r.names, IsName name ∧ IsName (ρ name)) :
    ∀ c ∈ renameLine ρ place raw, c ∈ raw ∨ isPlain c := by
  intro c hc
  cases hsaid : said? place raw with
  | none =>
    rw [renameLine, hsaid] at hc
    exact .inl hc
  | some r =>
    rw [renameLine_eq hsaid, List.mem_append] at hc
    obtain hc | hc := hc
    · refine ((renames_takeWhile hsaid (hnames r hsaid)).chars c hc).imp_left fun hc => ?_
      exact (List.takeWhile_prefix _).subset hc
    · exact .inl ((List.dropWhile_suffix _).subset hc)

theorem clausesFrom_renameLines
    (hnames : ∀ name ∈ namesOf (clausesFrom line place raws), IsName name ∧ IsName (ρ name)) :
    clausesFrom line place (renameLines ρ place raws) =
      (clausesFrom line place raws).map (Clause.recode (.ofNames ρ)) ∧
    ∀ raw' ∈ renameLines ρ place raws, ∀ c ∈ raw', (∃ raw ∈ raws, c ∈ raw) ∨ isPlain c := by
  induction raws generalizing line place with
  | nil => exact ⟨rfl, nofun⟩
  | cons raw raws ih =>
    have hlines : clausesFrom line place (raw :: raws) = _ := clausesFrom_cons
    have hsplit : namesOf (clausesFrom line place (raw :: raws)) =
        namesOf (clausesFrom line place [raw]) ++
          namesOf (clausesFrom (line + 1) (openAfter place raw) raws) := by
      rw [hlines, namesOf, List.flatMap_append]
      rfl
    rw [hsplit, List.forall_mem_append] at hnames
    have hraw (r : Reading) (hsaid : said? place raw = some r) :
        ∀ name ∈ r.names, IsName name ∧ IsName (ρ name) := by
      intro name hname
      refine hnames.1 name (List.mem_flatMap.2 ⟨⟨line, r⟩, ?_, hname⟩)
      rw [clausesFrom_singleton, hsaid]
      exact List.mem_singleton_self _
    obtain ⟨hclauses, hchars⟩ := ih hnames.2
    obtain ⟨hsaid, hopen⟩ := said?_renameLine hraw
    constructor
    · rw [renameLines, clausesFrom_cons, hopen, hclauses, hlines, List.map_append,
        map_recode_clausesFrom, clausesFrom_singleton, hsaid]
      rfl
    · rw [renameLines, List.forall_mem_cons]
      constructor
      · intro c hc
        exact (mem_renameLine hraw c hc).imp_left fun hc => ⟨raw, List.mem_cons_self .., hc⟩
      · intro raw' hraw' c hc
        obtain ⟨raw'', hraw'', hc⟩ | hplain := hchars raw' hraw' c hc
        · exact .inl ⟨raw'', List.mem_cons_of_mem _ hraw'', hc⟩
        · exact .inr hplain

theorem lines_rename {source : List Char}
    (hnames : ∀ name ∈ namesIn source, IsName name ∧ IsName (ρ name)) :
    lines (rename ρ source) = renameLines ρ none (lines source) := by
  have hne : renameLines ρ none (lines source) ≠ [] := by
    obtain ⟨raw, raws, hlines⟩ := List.exists_cons_of_ne_nil (splitOn_ne_nil (· == '\n') source)
    rw [show lines source = raw :: raws from hlines]
    exact List.cons_ne_nil _ _
  refine lines_intercalate hne fun raw' hraw' hmem => ?_
  obtain ⟨raw, hraw, hmem⟩ | hplain := (clausesFrom_renameLines hnames).2 raw' hraw' '\n' hmem
  · exact absurd (forall_mem_splitOn source raw hraw _ hmem) (by decide)
  · exact absurd hplain (by decide)

theorem isFaithful_ofNames {names : List (List Char)} (h : Set.InjOn ρ {name | name ∈ names}) :
    (Recoding.ofNames ρ).IsFaithful names :=
  ⟨h, fun _ => rfl⟩

/-- In other names, where different names get different ones, a source is translated to the same
image, or fails in the same way with the other name in place of the one. -/
theorem translate_rename {source : List Char}
    (hnames : ∀ name ∈ namesIn source, IsName name ∧ IsName (ρ name))
    (hρ : Set.InjOn ρ {name | name ∈ namesIn source}) :
    translate (rename ρ source) = (translate source).mapError (Fault.recode (.ofNames ρ)) := by
  rw [translate_eq_assemble, translate_eq_assemble, lines_rename hnames,
    (clausesFrom_renameLines hnames).1]
  exact assemble_recode (isFaithful_ofNames hρ)

theorem translate_rename_swapped :
    translate ".code\n x:\njmp y, ; x\ny:".toList =
      .ok ⟨[⟨0, .number, [1234]⟩, ⟨1, .number, [1234]⟩], [⟨0, .jmp, [1]⟩]⟩ ∧
    translate ".code\njmp y".toList = .error ⟨2, .unresolvedSymbol "y".toList⟩ := by
  let ρ : List Char → List Char := fun name => if name = ['x'] then ['y'] else ['x']
  have hnames : ∀ name ∈ [['y'], ['x'], ['x']], IsName name ∧ IsName (ρ name) := by decide
  have hρ : ∀ a ∈ [['y'], ['x'], ['x']], ∀ b ∈ [['y'], ['x'], ['x']], ρ a = ρ b → a = b := by
    decide
  have hname : ∀ name ∈ [['x']], IsName name ∧ IsName (ρ name) := by decide
  have hsame : ∀ a ∈ [['x']], ∀ b ∈ [['x']], ρ a = ρ b → a = b := by decide
  constructor
  · have hswapped : translate (rename ρ ".code\n y:\njmp x, ; x\nx:".toList) = _ :=
      translate_rename hnames fun a ha b hb => hρ a ha b hb
    exact hswapped
  · have hrenamed : translate (rename ρ ".code\njmp x".toList) = _ :=
      translate_rename hname fun a ha b hb => hsame a ha b hb
    exact hrenamed

end TickMachine.Assembly
