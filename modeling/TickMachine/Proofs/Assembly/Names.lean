import TickMachine.Proofs.Assembly.Printed
import TickMachine.Proofs.Text.Runs

/-! Identifiers as names of labels and variables. An identifier is neither a number nor a register
nor anything that separates the words of a line, so that it is read as a symbol wherever an operand
may stand. -/

namespace TickMachine.Assembly

open Text

/-- An identifier of letters, digits and underscores that is not read as a number or a register. -/
structure IsName (name : List Char) : Prop where
  ne_nil : name ≠ []
  chars : ∀ c ∈ name, c.isAlphanum ∨ c = '_'
  first : ∀ c ∈ name.head?, ¬c.isDigit
  register : ¬(name.head? = some 'r' ∧ name.tail ≠ [] ∧ ∀ c ∈ name.tail, c.isDigit)

instance (name : List Char) : Decidable (IsName name) :=
  haveI : Decidable (∀ c ∈ name, c.isAlphanum ∨ c = '_') := List.decidableBAll _ name
  haveI : Decidable (∀ c ∈ name.head?, ¬c.isDigit) := Option.decidableForallMem _
  haveI : Decidable (∀ c ∈ name.tail, c.isDigit) := List.decidableBAll _ name.tail
  decidable_of_iff ((name ≠ [] ∧ ∀ c ∈ name, c.isAlphanum ∨ c = '_') ∧
      (∀ c ∈ name.head?, ¬c.isDigit) ∧
      ¬(name.head? = some 'r' ∧ name.tail ≠ [] ∧ ∀ c ∈ name.tail, c.isDigit))
    ⟨fun h => ⟨h.1.1, h.1.2, h.2.1, h.2.2⟩, fun h => ⟨⟨h.ne_nil, h.chars⟩, h.first, h.register⟩⟩

variable {name text : List Char} {c : Char}

theorem isPlain_of_isNameChar (h : c.isAlphanum ∨ c = '_') : isPlain c := by
  obtain h | rfl := h
  · rw [Char.isAlphanum, Bool.or_eq_true, isAlpha_iff, isUpper_iff, isLower_iff] at h
    obtain (h | h) | h := h
    · exact isPlain_of_toNat (.inr (by omega))
    · exact isPlain_of_toNat (.inr (by omega))
    · exact isPlain_of_isDigit h
  · decide

theorem IsName.isPlainText (h : IsName name) : IsPlainText name :=
  ⟨h.ne_nil, fun c hc => isPlain_of_isNameChar (h.chars c hc)⟩

theorem IsName.int64? (h : IsName name) : int64? name = none := by
  obtain ⟨x, rest, rfl⟩ := List.exists_cons_of_ne_nil h.ne_nil
  have hdigit : x.isDigit = false := by simpa using h.first x rfl
  have hchar := h.chars x (List.mem_cons_self ..)
  have hdigits : digits? (x :: rest) = none := digits?_of_not_digit (List.mem_cons_self ..) hdigit
  have hsigned : signed? (x :: rest) = none := by
    unfold signed?
    split
    · next heq =>
      obtain ⟨rfl, -⟩ := List.cons.inj heq
      exact absurd hchar (by decide)
    · next heq =>
      obtain ⟨rfl, -⟩ := List.cons.inj heq
      exact absurd hchar (by decide)
    · rw [hdigits]
      rfl
  rw [Text.int64?, hsigned]
  rfl

theorem IsName.register? (h : IsName name) : register? name = none := by
  unfold Assembly.register?
  split
  · next digits =>
    have hdigits : digits? digits = none := by
      rw [digits?, if_neg]
      rintro ⟨hne, hall⟩
      exact h.register ⟨rfl, hne, List.all_eq_true.1 hall⟩
    rw [hdigits]
    rfl
  · rfl

theorem IsName.read (h : IsName name) : Operand.read name = .symbol name := by
  rw [Operand.read, h.int64?, h.register?]

theorem eq_of_read_eq_symbol (h : Operand.read text = .symbol name) : name = text := by
  unfold Operand.read at h
  split at h
  · cases h
  · split at h
    · cases h
    · exact (Operand.symbol.inj h).symm

theorem IsName.trimEndWhile_append (h : IsName name) {commas : List Char}
    (hcommas : ∀ c ∈ commas, (c == ',') = true) :
    trimEndWhile (· == ',') (name ++ commas) = name := by
  rw [trimEndWhile_append_of_forall hcommas]
  refine trimEndWhile_eq_self fun c hc => ?_
  have hplain := h.isPlainText.2 c (List.mem_of_getLast? hc)
  rw [isPlain] at hplain
  simp at hplain
  simpa using hplain.1.1.2

theorem IsName.isTrimmed (hname : IsName name) : IsTrimmed isBlank name :=
  isTrimmed_of_forall fun c hc => isBlank_of_isPlain (hname.isPlainText.2 c hc)

end TickMachine.Assembly
