import Mathlib.Algebra.Ring.Parity
import TickMachine.Proofs.Assembly.Addresses
import TickMachine.Proofs.Assembly.InstructionLines

/-! What the operands of a source come to in the image. A name leads to its label, or else to its
variable. A number or a register stands for itself, also if a label or a variable has the same text
for a name. -/

namespace TickMachine.Assembly

open Text

structure Statement.IsWritten (s : Statement) (mnemonic : List Char) (os : List (List Char)) :
    Prop where
  place : s.place = some .code
  ends : s.text.getLast? ≠ some ':'
  words : ∃ texts, words s.text = mnemonic :: texts ∧ operandWords texts = os

/-- In an instruction with `count` operands, the operand at `j` becomes the argument at `i` of the
word at `k`. The register of a linear form is in all of its words. -/
inductive Becomes (mnemonic : List Char) (count : Nat) : Nat → Nat → Nat → Prop
  | same {j : Nat} (houtput : mnemonic.map Char.toLower ≠ "output".toList)
    (hlinear : mnemonic.map Char.toLower ≠ "linear".toList) : Becomes mnemonic count j 0 j
  | output (h : mnemonic.map Char.toLower = "output".toList) : Becomes mnemonic count 0 0 1
  | register {k : Nat} (h : mnemonic.map Char.toLower = "linear".toList)
    (hk : 2 * k + 2 < count) : Becomes mnemonic count 0 k 0
  | factor {k : Nat} (h : mnemonic.map Char.toLower = "linear".toList) :
    Becomes mnemonic count (2 * k + 1) k 1
  | source {k : Nat} (h : mnemonic.map Char.toLower = "linear".toList) :
    Becomes mnemonic count (2 * k + 2) k 2

/-- `v` is what an operand written `name` is to stand for: itself if it is a number or a register,
and otherwise the label of that name, or the variable if there is no such label. -/
structure Outline.Intends (o : Outline) (name : List Char) (v : Int64) : Prop where
  number : ∀ u, int64? name = some u → v = u
  register : int64? name = none → ∀ u, register? name = some u → v = u
  label : int64? name = none → register? name = none → ∀ n, o.LabelAt name n → v = Int64.ofNat n
  address : int64? name = none → register? name = none → (∀ n, ¬ o.LabelAt name n) →
    ∀ n, o.VariableAt name n → v = Int64.ofNat n

variable {mnemonic name : List Char} {os : List (List Char)} {operands : List Operand}
  {is : List Instruction} {j k i : Nat} {operand register : Operand} {t : Operand × Operand}
  {terms : List (Operand × Operand)} {o : Outline} {ss before after : List Statement}
  {s : Statement} {image : Image} {v v' : Int64}

/-! ### From an operand to an argument -/

theorem getElem?_termOperands (terms : List (Operand × Operand)) (k : Nat) :
    (termOperands terms)[2 * k]? = terms[k]?.map Prod.fst ∧
      (termOperands terms)[2 * k + 1]? = terms[k]?.map Prod.snd := by
  induction terms generalizing k with
  | nil => exact ⟨rfl, rfl⟩
  | cons t terms ih =>
    cases k with
    | zero => exact ⟨rfl, rfl⟩
    | succ k => exact ih k

theorem exists_word_of_term {first : Operand × Operand}
    (h : (first :: terms)[k]? = some t) :
    ∃ x : Instruction, (⟨.linear, [register, first.1, first.2]⟩ ::
      terms.map fun t => ⟨.linearCont, [register, t.1, t.2]⟩)[k]? = some x ∧
        x.operands = [register, t.1, t.2] := by
  cases k with
  | zero =>
    obtain rfl := Option.some.inj h
    exact ⟨_, rfl, rfl⟩
  | succ k =>
    have hterm : terms[k]? = some t := h
    refine ⟨⟨.linearCont, [register, t.1, t.2]⟩, ?_, rfl⟩
    rw [List.getElem?_cons_succ, List.getElem?_map, hterm]
    rfl

theorem Becomes.exists_operand (h : Becomes mnemonic operands.length j k i)
    (hgives : (CodeLine.instruction mnemonic operands).Gives is)
    (hj : operands[j]? = some operand) :
    ∃ x, is[k]? = some x ∧ x.operands[i]? = some operand := by
  cases hgives with
  | @input _ register hmnemonic =>
    cases h with
    | same =>
      have hfirst : ([register] ++ [.value 0])[j]? = some operand := by
        rw [List.getElem?_append_left (List.getElem?_eq_some_iff.1 hj).1, hj]
      exact ⟨_, rfl, hfirst⟩
    | output h | register h | factor h | source h =>
      exact absurd (hmnemonic.symm.trans h) (by decide)
  | output hmnemonic =>
    cases h with
    | output => exact ⟨_, rfl, hj⟩
    | same houtput => exact absurd hmnemonic houtput
    | register h | factor h | source h => exact absurd (hmnemonic.symm.trans h) (by decide)
  | @linear _ register factor source terms hmnemonic =>
    have hterms := getElem?_termOperands ((factor, source) :: terms)
    cases h with
    | @register k _ hk =>
      rw [List.length_cons, List.length_cons, List.length_cons, length_termOperands] at hk
      have hlt : k < ((factor, source) :: terms).length := by
        rw [List.length_cons]
        omega
      obtain ⟨x, hx, hoperands⟩ := exists_word_of_term (List.getElem?_eq_getElem hlt)
      exact ⟨x, hx, hoperands ▸ hj⟩
    | @factor k =>
      obtain ⟨t, ht, rfl⟩ := Option.map_eq_some_iff.1 ((hterms k).1.symm.trans hj)
      obtain ⟨x, hx, hoperands⟩ := exists_word_of_term ht
      exact ⟨x, hx, hoperands ▸ rfl⟩
    | @source k =>
      obtain ⟨t, ht, rfl⟩ := Option.map_eq_some_iff.1 ((hterms k).2.symm.trans hj)
      obtain ⟨x, hx, hoperands⟩ := exists_word_of_term ht
      exact ⟨x, hx, hoperands ▸ rfl⟩
    | output h => exact absurd (hmnemonic.symm.trans h) (by decide)
    | same _ hlinear => exact absurd hmnemonic hlinear
  | plain hmnemonic hdata hlinear hlength =>
    have hpseudo := mnemonic_ne_pseudo hlinear
    rw [← hmnemonic] at hpseudo
    cases h with
    | same => exact ⟨_, rfl, hj⟩
    | output h | register h | factor h | source h => exact absurd h (hpseudo _ (by decide))

theorem exists_becomes (hgives : (CodeLine.instruction mnemonic operands).Gives is)
    (hj : j < operands.length) : ∃ k i, Becomes mnemonic operands.length j k i := by
  by_cases houtput : mnemonic.map Char.toLower = "output".toList
  · have hone : operands.length = 1 := by
      cases hgives with
      | output => rfl
      | input h | linear h => exact absurd (h.symm.trans houtput) (by decide)
      | plain h _ hlinear =>
        exact absurd (h.symm.trans houtput) (mnemonic_ne_pseudo hlinear _ (by decide))
    obtain rfl : j = 0 := by omega
    exact ⟨0, 1, .output houtput⟩
  by_cases hlinear : mnemonic.map Char.toLower = "linear".toList
  · have hthree : 3 ≤ operands.length := by
      cases hgives with
      | linear => exact Nat.le_add_left 3 _
      | input h | output h => exact absurd (h.symm.trans hlinear) (by decide)
      | plain h _ hne => exact absurd (h.symm.trans hlinear) (mnemonic_ne_pseudo hne _ (by decide))
    obtain ⟨k, rfl | rfl⟩ := Nat.even_or_odd' j
    · cases k with
      | zero => exact ⟨0, 0, .register hlinear (by omega)⟩
      | succ k => exact ⟨k, 2, .source hlinear⟩
    · exact ⟨k, 1, .factor hlinear⟩
  exact ⟨0, j, .same houtput hlinear⟩

theorem Statement.IsWritten.codeLine (h : s.IsWritten mnemonic os) :
    s.codeLine = .instruction mnemonic (os.map Operand.read) := by
  obtain ⟨-, hends, texts, hwords, rfl⟩ := h
  rw [Statement.codeLine, CodeLine.read, if_neg hends, hwords]
  rfl

namespace Outline

/-! ### What an argument stands for -/

theorem Describes.exists_argument (h : o.Describes ss) (hbuilds : o.Builds image)
    (hss : ss = before ++ s :: after) (hs : s.IsWritten mnemonic os) (hj : os[j]? = some name)
    (hplace : Becomes mnemonic os.length j k i) : ∃ w v,
      image.code[wordsIn before + k]? = some w ∧ w.args[i]? = some v ∧
        o.Denotes (.read name) v := by
  obtain ⟨is, code, ws, code', his, hcode, hlength, hws⟩ := h.exists_words hbuilds hss hs.place
  have hread : (os.map Operand.read)[j]? = some (.read name) := by
    rw [List.getElem?_map, hj]
    rfl
  rw [hs.codeLine] at his
  rw [← List.length_map (f := Operand.read)] at hplace
  obtain ⟨x, hx, hoperand⟩ := hplace.exists_operand his hread
  have hindexed : (is.zipIdx code.length)[k]? = some (x, code.length + k) := by
    rw [List.getElem?_zipIdx, hx]
    rfl
  obtain ⟨w, hw, -, -, hargs⟩ := getElem?_of_forall₂ hws hindexed
  obtain ⟨v, hv, hdenotes⟩ := getElem?_of_forall₂ hargs hoperand
  refine ⟨w, v, ?_, hv, hdenotes⟩
  have hlt := (List.getElem?_eq_some_iff.1 hw).1
  rw [hcode, List.append_assoc, ← hlength, List.getElem?_append_right (Nat.le_add_right _ _),
    Nat.add_sub_cancel_left, List.getElem?_append_left hlt, hw]

theorem Describes.denotes_unique (h : o.Describes ss) (hv : o.Denotes operand v)
    (hv' : o.Denotes operand v') : v = v' := by
  have hresolve : (o.layout ss).resolve 0 operand = .ok v := h.resolve_eq_ok_iff.2 hv
  exact Except.ok.inj (hresolve.symm.trans (h.resolve_eq_ok_iff.2 hv'))

theorem Describes.intends (h : o.Describes ss) (hv : o.Denotes (.read name) v) :
    o.Intends name v := by
  have hsymbol (hnumber : int64? name = none) (hregister : register? name = none) :
      o.Denotes (.symbol name) v := by
    rwa [Operand.read, hnumber, hregister] at hv
  refine ⟨fun u hu => ?_, fun hnumber u hu => ?_, fun hnumber hregister n hn => ?_,
    fun hnumber hregister hnone n hn => ?_⟩
  · rw [Operand.read, hu] at hv
    exact h.denotes_unique hv .value
  · rw [Operand.read, hnumber, hu] at hv
    exact h.denotes_unique hv .value
  · exact h.denotes_unique (hsymbol hnumber hregister) (.ofLabel hn)
  · exact h.denotes_unique (hsymbol hnumber hregister) (.ofVariable hnone hn)

end Outline

/-- In a source that is translated, an operand comes out as the address of the label that has its
text for a name, or else as that of the variable, unless the text is a number or a register. Then it
comes out as this, also where a label or a variable is named so. -/
theorem translate_reference {source : List Char} {image : Image}
    (h : translate source = .ok image) :
    ∃ o : Outline, o.Describes (statements source) ∧ o.Builds image ∧
      ∀ before s after mnemonic os j name, statements source = before ++ s :: after →
        s.IsWritten mnemonic os → os[j]? = some name →
          (∃ k i, Becomes mnemonic os.length j k i) ∧
          ∀ k i, Becomes mnemonic os.length j k i → ∃ w v,
            image.code[wordsIn before + k]? = some w ∧ w.args[i]? = some v ∧
              o.Intends name v := by
  obtain ⟨o, ho, hbuilds⟩ := translate_eq_ok_iff.1 h
  refine ⟨o, ho, hbuilds, fun before s after mnemonic os j name hss hs hj => ⟨?_, ?_⟩⟩
  · obtain ⟨is, _, _, _, his, -⟩ := ho.exists_words hbuilds hss hs.place
    rw [hs.codeLine] at his
    have hlt := (List.getElem?_eq_some_iff.1 hj).1
    rw [← List.length_map (f := Operand.read)] at hlt ⊢
    exact exists_becomes his hlt
  · intro k i hplace
    obtain ⟨w, v, hw, hv, hdenotes⟩ := ho.exists_argument hbuilds hss hs hj hplace
    exact ⟨w, v, hw, hv, ho.intends hdenotes⟩

theorem translate_reference_followed : ∃ (o : Outline) (source : List Char) (image : Image),
    source = (".data\nNUMBER e 7\nNUMBER a 9\n" ++
      ".code\noutput r1\nlinear r1 a r2 e, r3\ne:").toList ∧
    translate source = .ok image ∧ o.Describes (statements source) ∧
    (∃ w v, image.code[1]? = some w ∧ w.args[1]? = some v ∧ o.Intends ['a'] v) ∧
    ∃ w, image.code[2]? = some w ∧ w.args[1]? = some 3 ∧ o.LabelAt ['e'] 3 ∧ o.Intends ['e'] 3 := by
  have h : translate (".data\nNUMBER e 7\nNUMBER a 9\n" ++
      ".code\noutput r1\nlinear r1 a r2 e, r3\ne:").toList =
      .ok ⟨[⟨0, .number, [1234]⟩, ⟨1, .number, [1234]⟩, ⟨2, .number, [7]⟩, ⟨3, .number, [9]⟩],
        [⟨0, .storeV, [1, 0]⟩, ⟨1, .linear, [0, 3, 1]⟩, ⟨2, .linearCont, [0, 3, 2]⟩]⟩ := rfl
  obtain ⟨o, ho, -, hreference⟩ := translate_reference h
  have hwritten : Statement.IsWritten ⟨6, some .code, "linear r1 a r2 e, r3".toList⟩
      "linear".toList ["r1".toList, ['a'], "r2".toList, ['e'], "r3".toList] :=
    ⟨rfl, by decide, _, rfl, rfl⟩
  have hfollow (j : Nat) (name : List Char)
      (hj : ["r1".toList, ['a'], "r2".toList, ['e'], "r3".toList][j]? = some name) :=
    (hreference [⟨2, some .data, "NUMBER e 7".toList⟩, ⟨3, some .data, "NUMBER a 9".toList⟩,
      ⟨5, some .code, "output r1".toList⟩] _ [⟨7, some .code, "e:".toList⟩] _ _ j name rfl
      hwritten hj).2
  obtain ⟨_, v, hw, hv, ha⟩ := hfollow 1 ['a'] rfl 0 1 (.factor (k := 0) rfl)
  obtain ⟨_, _, hw', hv', he⟩ := hfollow 3 ['e'] rfl 1 1 (.factor (k := 1) rfl)
  obtain rfl := Option.some.inj hw'
  obtain rfl := Option.some.inj hv'
  have hlabel : o.LabelAt ['e'] 3 := ⟨[.read "output r1".toList,
    .read "linear r1 a r2 e, r3".toList], .label ['e'], [], ho.lines, rfl, rfl⟩
  exact ⟨o, _, _, rfl, h, ho, ⟨_, v, hw, hv, ha⟩, _, rfl, rfl, hlabel, he⟩

/-- The load does not find the variable of that text but address 7, the first jump not the label but
the number of register 1, and the second one the label that has no comma in its name. -/
theorem translate_reference_missed : ∃ (o : Outline) (source : List Char) (image : Image),
    source = (".data\nNUMBER 7 40\n.code\nload_v r1, 7\njmp r1\njmp x,\n" ++
      "r1:\nx,:\nhlt\nx:").toList ∧
    translate source = .ok image ∧ o.Describes (statements source) ∧
    (textsIn .code (statements source)).map words = [["load_v".toList, "r1,".toList, ['7']],
      ["jmp".toList, "r1".toList], ["jmp".toList, "x,".toList], ["r1:".toList], ["x,:".toList],
      ["hlt".toList], ["x:".toList]] ∧
    image.code = [⟨0, .loadV, [0, 7]⟩, ⟨1, .jmp, [0]⟩, ⟨2, .jmp, [4]⟩, ⟨3, .hlt, []⟩] ∧
    Opcode.loadV.signature[1]? = some .value ∧ Opcode.jmp.signature[0]? = some .value ∧
    ((∀ n, ¬ o.LabelAt ['7'] n) ∧ ∃ n, o.VariableAt ['7'] n ∧ 7 ≠ Int64.ofNat n) ∧
    (∃ n, o.LabelAt "r1".toList n ∧ 0 ≠ Int64.ofNat n) ∧
    ∃ n, o.LabelAt "x,".toList n ∧ 4 ≠ Int64.ofNat n := by
  have h : translate (".data\nNUMBER 7 40\n.code\nload_v r1, 7\njmp r1\njmp x,\n" ++
      "r1:\nx,:\nhlt\nx:").toList =
      .ok ⟨[⟨0, .number, [1234]⟩, ⟨1, .number, [1234]⟩, ⟨2, .number, [40]⟩],
        [⟨0, .loadV, [0, 7]⟩, ⟨1, .jmp, [0]⟩, ⟨2, .jmp, [4]⟩, ⟨3, .hlt, []⟩]⟩ := rfl
  obtain ⟨l, hl, -⟩ := except_bind_eq_ok_iff.1 h
  obtain ⟨o, ho, hlayout⟩ := layout_eq_ok_iff.1 hl
  obtain rfl := Except.ok.inj hl
  have hlabel (name : List Char) (v : Int64) : _ → ∃ n, o.LabelAt name n ∧ v = Int64.ofNat n :=
    ho.labels_lookup.1
  have hvariable : _ → ∃ n, o.VariableAt ['7'] n ∧ 2 = Int64.ofNat n := ho.names_lookup.1
  rw [hlayout] at hlabel hvariable
  refine ⟨o, _, _, rfl, h, ho, rfl, rfl, rfl, rfl, ⟨?_, ?_⟩, ?_, ?_⟩
  · exact ho.labels_lookup_eq_none_iff.1 (hlayout ▸ rfl)
  · obtain ⟨n, hn, hv⟩ := hvariable rfl
    exact ⟨n, hn, hv ▸ by decide⟩
  · obtain ⟨n, hn, hv⟩ := hlabel "r1".toList 3 rfl
    exact ⟨n, hn, hv ▸ by decide⟩
  · obtain ⟨n, hn, hv⟩ := hlabel "x,".toList 3 rfl
    exact ⟨n, hn, hv ▸ by decide⟩

end TickMachine.Assembly
