import TickMachine.Assembly.Statement
import TickMachine.Isa.Word
import TickMachine.Proofs.Text.Decimal
import TickMachine.Proofs.Text.Joined

/-! Printed words as lines of source. The printer puts no character into a mnemonic or an operand
that the reader gives a meaning to, so that the line falls apart into the same mnemonic and the same
operands again. -/

namespace TickMachine.Assembly

open Text Word

def isPlain (c : Char) : Bool := !isBlank c && c != ',' && c != ';' && c != ':'

theorem isBlank_of_isPlain {c : Char} (h : isPlain c) : isBlank c = false := by
  simp [isPlain] at h
  exact h.1.1.1

theorem isPlain_of_toNat {c : Char}
    (h : 48 ≤ c.toNat ∧ c.toNat ≤ 57 ∨ 65 ≤ c.toNat ∧ c.toNat ≤ 122) : isPlain c := by
  have hne (d : Char) (hd : ¬(48 ≤ d.toNat ∧ d.toNat ≤ 57 ∨ 65 ≤ d.toNat ∧ d.toNat ≤ 122)) :
      c ≠ d := by
    rintro rfl
    exact hd h
  have hcomma := hne ',' (by decide)
  have hsemicolon := hne ';' (by decide)
  have hcolon := hne ':' (by decide)
  have hblank : isBlank c = false := by
    simp [isBlank]
    omega
  simp [isPlain, hblank, hcomma, hsemicolon, hcolon]

theorem isPlain_of_isDigit {c : Char} (h : c.isDigit) : isPlain c := by
  refine isPlain_of_toNat (.inl ?_)
  simpa [Char.isDigit, UInt32.le_iff_toNat_le] using h

theorem isPlain_of_mem_toString {n : Int} {c : Char} (h : c ∈ (toString n).toList) : isPlain c := by
  rw [toList_toString] at h
  split at h
  · exact isPlain_of_isDigit (isDigit_of_mem_toDigits h)
  · rcases List.mem_cons.1 h with h | h
    · rw [h]
      decide
    · exact isPlain_of_isDigit (isDigit_of_mem_toDigits h)

theorem toList_toString_ne_nil (n : Int) : (toString n).toList ≠ [] := by
  rw [toList_toString]
  split
  · exact Nat.toDigits_ne_nil
  · exact List.cons_ne_nil _ _

def IsPlainText (text : List Char) : Prop := text ≠ [] ∧ ∀ c ∈ text, isPlain c

theorem IsPlainText.isWord {text : List Char} (h : IsPlainText text) : IsWord text :=
  ⟨h.1, fun c hc => isBlank_of_isPlain (h.2 c hc)⟩

theorem mnemonic_isPlainText (op : Opcode) : IsPlainText op.mnemonic.toList := by
  have hplain : op.mnemonic.toList.all isPlain := by cases op <;> rfl
  constructor
  · cases op <;> exact List.cons_ne_nil _ _
  · exact List.all_eq_true.1 hplain

variable {kind : OperandKind} {kinds : List OperandKind} {arg : Int64} {args : List Int64}
  {text : List Char} {texts : List (List Char)}

theorem operandText_isPlainText : IsPlainText (operandText kind arg).toList := by
  rw [operandText]
  split
  · rw [String.toList_append]
    refine ⟨List.append_ne_nil_of_right_ne_nil _ (toList_toString_ne_nil _), ?_⟩
    intro c hc
    rcases List.mem_append.1 hc with hc | hc
    · rw [List.mem_singleton.1 hc]
      decide
    · exact isPlain_of_mem_toString hc
  · exact ⟨toList_toString_ne_nil _, fun c => isPlain_of_mem_toString⟩

theorem int64?_register (text : List Char) : int64? ('r' :: text) = none := by
  have hdigits : digits? ('r' :: text) = none :=
    digits?_of_not_digit (List.mem_cons_self ..) (by decide)
  have hsigned : signed? ('r' :: text) = none := by simp [signed?, hdigits]
  rw [int64?, hsigned]
  rfl

theorem register?_toString {n : Int64} (h0 : 0 ≤ n.toInt) (h : n.toInt < Int64.maxValue.toInt) :
    register? ('r' :: (toString (n.toInt + 1)).toList) = some n := by
  have hpos : 0 ≤ n.toInt + 1 := by omega
  have hbounds : 1 ≤ (n.toInt + 1).toNat ∧
      ((n.toInt + 1).toNat : Int) ≤ Int64.maxValue.toInt := by omega
  have hback : Int64.ofNat ((n.toInt + 1).toNat - 1) = n := by
    have hlt := n.toInt_lt
    rw [← Int64.toInt_inj, Int64.toInt_ofNat_of_lt (by omega)]
    omega
  rw [toList_toString, if_pos hpos, register?, digits?_toDigits]
  exact (if_pos hbounds).trans (congrArg some hback)

theorem read_operandText : Operand.read (operandText kind arg).toList = .value arg := by
  rw [operandText]
  split
  · next h =>
    have hname : ("r" ++ toString (arg.toInt + 1)).toList =
        'r' :: (toString (arg.toInt + 1)).toList := by
      rw [String.toList_append]
      rfl
    rw [hname, Operand.read, int64?_register, register?_toString h.2.1 h.2.2]
  · rw [Operand.read, int64?_toString]

theorem map_read_operandTexts :
    (operandTexts kinds args).map (fun text => Operand.read text.toList) = args.map .value := by
  fun_induction operandTexts kinds args with
  | case1 => rfl
  | case2 arg args ih => rw [List.map_cons, List.map_cons, read_operandText, ih]
  | case3 kind kinds arg args ih => rw [List.map_cons, List.map_cons, read_operandText, ih]

theorem operandTexts_isPlainText : ∀ text ∈ operandTexts kinds args, IsPlainText text.toList := by
  fun_induction operandTexts kinds args with
  | case1 => exact nofun
  | case2 arg args ih => exact List.forall_mem_cons.2 ⟨operandText_isPlainText, ih⟩
  | case3 kind kinds arg args ih => exact List.forall_mem_cons.2 ⟨operandText_isPlainText, ih⟩

theorem toNat_lt_of_isDigit {c : Char} (h : c.isDigit) : c.toNat < 128 := by
  have hdigit : 48 ≤ c.toNat ∧ c.toNat ≤ 57 := by
    simpa [Char.isDigit, UInt32.le_iff_toNat_le] using h
  omega

theorem toNat_lt_of_mem_toString {n : Int} {c : Char} (h : c ∈ (toString n).toList) :
    c.toNat < 128 := by
  rw [toList_toString] at h
  split at h
  · exact toNat_lt_of_isDigit (isDigit_of_mem_toDigits h)
  · rcases List.mem_cons.1 h with rfl | h
    · decide
    · exact toNat_lt_of_isDigit (isDigit_of_mem_toDigits h)

theorem toNat_lt_of_mem_operandText {c : Char} (h : c ∈ (operandText kind arg).toList) :
    c.toNat < 128 := by
  rw [operandText] at h
  split at h
  · rw [String.toList_append] at h
    rcases List.mem_append.1 h with h | h
    · obtain rfl := List.mem_singleton.1 h
      decide
    · exact toNat_lt_of_mem_toString h
  · exact toNat_lt_of_mem_toString h

theorem operandTexts_toNat_lt :
    ∀ text ∈ operandTexts kinds args, ∀ c ∈ text.toList, c.toNat < 128 := by
  have hone {kind : OperandKind} {arg : Int64} :
      ∀ c ∈ (operandText kind arg).toList, c.toNat < 128 := fun _ => toNat_lt_of_mem_operandText
  fun_induction operandTexts kinds args with
  | case1 => exact nofun
  | case2 arg args ih => exact List.forall_mem_cons.2 ⟨hone, ih⟩
  | case3 kind kinds arg args ih => exact List.forall_mem_cons.2 ⟨hone, ih⟩

def withCommas : List (List Char) → List (List Char)
  | [] => []
  | [text] => [text]
  | text :: texts => (text ++ [',']) :: withCommas texts

theorem withCommas_ne_nil (h : texts ≠ []) : withCommas texts ≠ [] := by
  fun_cases withCommas texts with
  | case1 => exact absurd rfl h
  | case2 text => exact List.cons_ne_nil _ _
  | case3 text texts hne => exact List.cons_ne_nil _ _

theorem intercalate_withCommas :
    [' '].intercalate (withCommas texts) = [',', ' '].intercalate texts := by
  fun_induction withCommas texts with
  | case1 => rfl
  | case2 text => rfl
  | case3 text texts hne ih =>
    cases texts with
    | nil => exact absurd rfl hne
    | cons text' texts =>
      have hcons := withCommas_ne_nil (List.cons_ne_nil text' texts)
      rw [List.intercalate_cons_of_ne_nil hcons, ih, List.intercalate_cons_cons, List.append_assoc,
        List.append_assoc, List.append_assoc]
      rfl

theorem mem_withCommas (h : text ∈ withCommas texts) :
    ∃ t ∈ texts, text = t ∨ text = t ++ [','] := by
  fun_induction withCommas texts with
  | case1 => cases h
  | case2 t => exact ⟨t, List.mem_cons_self .., .inl (List.mem_singleton.1 h)⟩
  | case3 t texts hne ih =>
    rcases List.mem_cons.1 h with h | h
    · exact ⟨t, List.mem_cons_self .., .inr h⟩
    · rcases ih h with ⟨t', ht', h⟩
      exact ⟨t', List.mem_cons_of_mem _ ht', h⟩

theorem trimEndWhile_comma (h : IsPlainText text) :
    trimEndWhile (· == ',') text = text ∧ trimEndWhile (· == ',') (text ++ [',']) = text := by
  have hkeep : trimEndWhile (· == ',') text = text := by
    apply trimEndWhile_eq_self
    intro c hc
    have hplain := h.2 c (List.mem_of_getLast? hc)
    simp [isPlain] at hplain
    exact beq_false_of_ne hplain.1.1.2
  have hdrop : trimEndWhile (· == ',') (text ++ [',']) = trimEndWhile (· == ',') text := by
    rw [trimEndWhile, List.reverse_append]
    rfl
  exact ⟨hkeep, hdrop.trans hkeep⟩

theorem map_trimEndWhile_withCommas (h : ∀ text ∈ texts, IsPlainText text) :
    (withCommas texts).map (trimEndWhile (· == ',')) = texts := by
  fun_induction withCommas texts with
  | case1 => rfl
  | case2 text =>
    have htrim := (trimEndWhile_comma (h text (List.mem_cons_self ..))).1
    rw [List.map_cons, htrim, List.map_nil]
  | case3 text texts hne ih =>
    have htrim := (trimEndWhile_comma (h text (List.mem_cons_self ..))).2
    have hrest := ih fun t ht => h t (List.mem_cons_of_mem _ ht)
    rw [List.map_cons, htrim, hrest]

theorem operands_withCommas (h : ∀ text ∈ texts, IsPlainText text) :
    operands (withCommas texts) = texts.map Operand.read := by
  have hfilter : texts.filter (!·.isEmpty) = texts := by
    apply List.filter_eq_self.2
    intro text ht
    simpa using (h text ht).1
  rw [operands, map_trimEndWhile_withCommas h, hfilter]

theorem operands_of_isPlainText (h : ∀ text ∈ texts, IsPlainText text) :
    operands texts = texts.map Operand.read := by
  have htrim : texts.map (trimEndWhile (· == ',')) = texts := by
    have hself := fun text ht => (trimEndWhile_comma (h text ht)).1
    exact (List.map_congr_left hself).trans (List.map_id texts)
  have hfilter : texts.filter (!·.isEmpty) = texts := by
    apply List.filter_eq_self.2
    intro text ht
    simpa using (h text ht).1
  rw [operands, htrim, hfilter]

theorem content_intercalate (hne : texts ≠ []) (hword : ∀ text ∈ texts, IsWord text)
    (hcomment : ∀ text ∈ texts, ';' ∉ text) :
    content ([' '].intercalate texts) = [' '].intercalate texts := by
  have hkeep : ([' '].intercalate texts).takeWhile (· != ';') = [' '].intercalate texts := by
    apply List.takeWhile_eq_self_iff.2
    intro c hc
    have hsemicolon : c ≠ ';' := by
      rintro rfl
      obtain hc | ⟨text, ht, hc⟩ := mem_intercalate hc
      · revert hc
        decide
      · exact hcomment text ht hc
    exact bne_iff_ne.2 hsemicolon
  rw [content, hkeep]
  apply trimWhile_eq_self
  · intro c hc
    obtain ⟨text, rest, rfl⟩ := List.exists_cons_of_ne_nil hne
    have htext := hword text (List.mem_cons_self ..)
    rw [head?_intercalate htext.1] at hc
    exact htext.2 c (List.mem_of_head? hc)
  · intro c hc
    obtain ⟨text, ht, hmem⟩ := mem_of_getLast?_intercalate (fun text ht => (hword text ht).1) hc
    exact (hword text ht).2 c hmem

theorem read_intercalate {mnemonic : List Char} (hmnemonic : IsPlainText mnemonic)
    (htexts : ∀ text ∈ texts, IsPlainText text) :
    CodeLine.read ([' '].intercalate (mnemonic :: texts)) =
      .instruction mnemonic (texts.map Operand.read) := by
  have hall : ∀ text ∈ mnemonic :: texts, IsPlainText text :=
    List.forall_mem_cons.2 ⟨hmnemonic, htexts⟩
  have hcolon : ([' '].intercalate (mnemonic :: texts)).getLast? ≠ some ':' := by
    intro h
    obtain hc | ⟨text, ht, hc⟩ := mem_intercalate (List.mem_of_getLast? h)
    · revert hc
      decide
    · have hplain := (hall text ht).2 _ hc
      revert hplain
      decide
  rw [CodeLine.read, if_neg hcolon, words_intercalate fun text ht => (hall text ht).isWord]
  show CodeLine.instruction _ (operands texts) = _
  rw [operands_of_isPlainText htexts]

end TickMachine.Assembly
