import TickMachine.Machine.Snapshot
import TickMachine.Proofs.Text.Decimal
import TickMachine.Proofs.Text.Joined

/-! The trace line of a machine. Its fields stand between marks that none of them has in it, so that
the line tells all of what it shows. -/

namespace TickMachine

open Text

def blanks (n : Nat) : String := String.ofList (List.replicate n ' ')

/-- The trace line of a machine: clock, counter, the opcode under it, latches, registers, flag. -/
def Machine.traceText (m : Machine) : String :=
  let tick := toString m.tick.toNat
  let counter := toString m.counter.toNat
  let opcode := (m.program[m.counter.toNat]?.map fun w =>
    String.ofList (w.opcode.mnemonic.toList.map Char.toUpper)).getD "-"
  let address := toString m.path.address.toInt
  let buffer := toString m.path.buffer.toInt
  let registers := m.path.registers.toList.map fun v => toString v.toInt
  "TICK: " ++ (blanks (4 - tick.length) ++ tick) ++
    " [" ++ (blanks (2 - counter.length) ++ counter) ++
    ": " ++ (opcode ++ blanks (7 - opcode.length)) ++ "]" ++
    " PC: " ++ (blanks (2 - counter.length) ++ counter) ++
    " DR: " ++ (blanks (2 - address.length) ++ address) ++
    " SB: " ++ (blanks (2 - buffer.length) ++ buffer) ++
    " RG: [" ++ ", ".intercalate registers ++ "]" ++
    " Z: " ++ (if m.path.isZero then "1" else "0")

theorem Machine.line_snapshot (m : Machine) : m.snapshot.line = m.traceText := by
  unfold Snapshot.line snapshot traceText
  simp only [Option.map_map]
  rfl

namespace Snapshot

variable {s s' : Snapshot} {c : Char} {width : Nat} {text text' : String}

/-! ### Fields -/

theorem padLeft_inj (h : text.toList.head? ≠ some ' ') (h' : text'.toList.head? ≠ some ' ')
    (heq : (padLeft width text).toList = (padLeft width text').toList) : text = text' := by
  simp only [padLeft, fill, String.toList_append, String.toList_ofList] at heq
  have hpieces := congrArg (List.dropWhile (· == ' ')) heq
  rw [dropWhile_replicate_append h, dropWhile_replicate_append h'] at hpieces
  exact String.toList_inj.1 hpieces

theorem padRight_inj (h : ' ' ∉ text.toList) (h' : ' ' ∉ text'.toList)
    (heq : (padRight width text).toList = (padRight width text').toList) : text = text' := by
  have hfront {text : String} (h : ' ' ∉ text.toList) :
      (padRight width text).toList.takeWhile (· != ' ') = text.toList := by
    have hplain : ∀ c ∈ text.toList, (c != ' ') = true := fun c hc =>
      bne_iff_ne.2 fun he => h (he ▸ hc)
    rw [padRight, fill, String.toList_append, String.toList_ofList,
      List.takeWhile_append_of_pos hplain]
    cases width - text.length <;> simp [List.replicate_succ]
  apply String.toList_inj.1
  rw [← hfront h, ← hfront h', heq]

theorem isNumeral_of_mem {n : Int} (h : c ∈ (toString n).toList) : c.isDigit ∨ c = '-' := by
  rw [toList_toString] at h
  split at h
  · exact .inl (isDigit_of_mem_toDigits h)
  · exact (List.mem_cons.1 h).symm.imp isDigit_of_mem_toDigits id

structure IsField (text : String) : Prop where
  head : text.toList.head? ≠ some ' '
  chars : ∀ c ∈ text.toList, c.isDigit ∨ c = '-'

theorem isField_toString (n : Int) : IsField (toString n) where
  head h := by
    obtain hdigit | hminus := isNumeral_of_mem (List.mem_of_mem_head? h)
    · cases hdigit
    · cases hminus
  chars _ := isNumeral_of_mem

theorem isField_toString_nat (n : Nat) : IsField (toString n) := isField_toString n

theorem notMem_padLeft (h : IsField text) (hc : c ≠ ' ' ∧ c.isDigit = false ∧ c ≠ '-') :
    c ∉ (padLeft width text).toList := by
  simp only [padLeft, fill, String.toList_append, String.toList_ofList, List.mem_append]
  rintro (hmem | hmem)
  · exact hc.1 (List.eq_of_mem_replicate hmem)
  · obtain hdigit | hminus := h.chars c hmem
    · rw [hc.2.1] at hdigit
      cases hdigit
    · exact hc.2.2 hminus

theorem ofMnemonic?_display (op : Opcode) : Opcode.ofMnemonic? op.display.toList = some op := by
  rw [Opcode.display, String.toList_ofList]
  cases op <;> rfl

def opcodeText (opcode : Option Opcode) : String := (opcode.map Opcode.display).getD "-"

theorem opcodeText_inj {opcode opcode' : Option Opcode}
    (h : opcodeText opcode = opcodeText opcode') : opcode = opcode' := by
  have hback (opcode : Option Opcode) :
      Opcode.ofMnemonic? (opcodeText opcode).toList = opcode := by
    cases opcode with
    | none => rfl
    | some op => exact ofMnemonic?_display op
  rw [← hback opcode, ← hback opcode', h]

theorem notMem_opcodeText (opcode : Option Opcode) (hc : c = ' ' ∨ c = ']') :
    c ∉ (opcodeText opcode).toList := by
  cases opcode with
  | none => rcases hc with rfl | rfl <;> decide
  | some op =>
    show c ∉ op.display.toList
    rw [Opcode.display, String.toList_ofList]
    rcases hc with rfl | rfl <;> cases op <;> decide

/-! ### Registers -/

theorem splitOn_commas (front : List Char) {text : List Char} {texts : List (List Char)}
    (hfront : ',' ∉ front) (h : ∀ t ∈ text :: texts, ',' ∉ t) :
    splitOn (· == ',') (front ++ [',', ' '].intercalate (text :: texts)) =
      (front ++ text) :: texts.map (' ' :: ·) := by
  have hnone {text : List Char} (h : ',' ∉ text) : ∀ x ∈ text, (x == ',') = false := fun x hx =>
    beq_false_of_ne fun he => h (he ▸ hx)
  have htext : ',' ∉ front ++ text := by
    rw [List.mem_append, not_or]
    exact ⟨hfront, h text (List.mem_cons_self ..)⟩
  induction texts generalizing front text with
  | nil => rw [List.intercalate_singleton, splitOn_of_forall_not (hnone htext), List.map_nil]
  | cons t texts ih =>
    have hrest := fun t ht => h t (List.mem_cons_of_mem _ ht)
    have htail := ih [' '] (by decide) hrest (by
      rw [List.mem_append, not_or]
      exact ⟨by decide, hrest t (List.mem_cons_self ..)⟩)
    rw [List.intercalate_cons_cons, List.append_assoc, ← List.append_assoc]
    show splitOn _ ((front ++ text) ++ ',' :: ([' '] ++ [',', ' '].intercalate (t :: texts))) = _
    rw [splitOn_append_cons (hnone htext) rfl, htail]
    rfl

theorem intercalate_commas_inj {texts texts' : List (List Char)}
    (h : ∀ t ∈ texts, t ≠ [] ∧ ',' ∉ t) (h' : ∀ t ∈ texts', t ≠ [] ∧ ',' ∉ t)
    (heq : [',', ' '].intercalate texts = [',', ' '].intercalate texts') : texts = texts' := by
  have hsplit (text : List Char) (texts : List (List Char))
      (h : ∀ t ∈ text :: texts, t ≠ [] ∧ ',' ∉ t) :
      splitOn (· == ',') ([',', ' '].intercalate (text :: texts)) =
        text :: texts.map (' ' :: ·) :=
    splitOn_commas [] List.not_mem_nil fun t ht => (h t ht).2
  have hpieces := congrArg (splitOn (· == ',')) heq
  cases texts with
  | nil =>
    cases texts' with
    | nil => rfl
    | cons text' texts' =>
      rw [hsplit _ _ h'] at hpieces
      exact absurd (List.cons.inj hpieces).1.symm (h' _ (List.mem_cons_self ..)).1
  | cons text texts =>
    rw [hsplit _ _ h] at hpieces
    cases texts' with
    | nil => exact absurd (List.cons.inj hpieces).1 (h _ (List.mem_cons_self ..)).1
    | cons text' texts' =>
      rw [hsplit _ _ h'] at hpieces
      obtain ⟨rfl, hrest⟩ := List.cons.inj hpieces
      rw [(List.map_inj_right fun _ _ h => (List.cons.inj h).2).1 hrest]

theorem toString_inj {v v' : Int64} (h : toString v.toInt = toString v'.toInt) : v = v' :=
  Option.some.inj (by rw [← int64?_toString, ← int64?_toString, h])

def registersText (values : List Int64) : List Char :=
  [',', ' '].intercalate (values.map fun v => (toString v.toInt).toList)

theorem registersText_inj {values values' : List Int64}
    (h : registersText values = registersText values') : values = values' := by
  have htexts (values : List Int64) :
      ∀ t ∈ values.map fun v => (toString v.toInt).toList, t ≠ [] ∧ ',' ∉ t := by
    intro t ht
    obtain ⟨v, -, rfl⟩ := List.mem_map.1 ht
    refine ⟨?_, fun hc => ?_⟩
    · rw [toList_toString]
      split
      · exact Nat.toDigits_ne_nil
      · exact List.cons_ne_nil _ _
    · obtain hdigit | hminus := isNumeral_of_mem hc
      · cases hdigit
      · cases hminus
  have hsame := intercalate_commas_inj (htexts values) (htexts values') h
  exact (List.map_inj_right fun _ _ h => toString_inj (String.toList_inj.1 h)).1 hsame

/-! ### The line -/

def lineText (s : Snapshot) : List Char :=
  "TICK: ".toList ++ (((padLeft 4 (toString s.tick.toNat)).toList ++ [' ']) ++
    '[' :: ((padLeft 2 (toString s.counter.toNat)).toList ++
    ':' :: ' ' :: ((padRight 7 (opcodeText s.opcode)).toList ++
    ']' :: (" PC: ".toList ++ ((padLeft 2 (toString s.counter.toNat)).toList ++
    " DR: ".toList ++ (((padLeft 2 (toString s.address.toInt)).toList ++ [' ']) ++
    'S' :: 'B' :: ':' :: ' ' :: (((padLeft 2 (toString s.buffer.toInt)).toList ++ [' ']) ++
    'R' :: 'G' :: ':' :: ' ' :: '[' :: (registersText s.registers.toList ++
    ']' :: ' ' :: 'Z' :: ':' :: ' ' :: [if s.isZero then '1' else '0']))))))))

theorem toList_line (s : Snapshot) : s.line.toList = s.lineText := by
  have hcounter : " [".toList = [' ', '['] ∧ ": ".toList = [':', ' '] ∧ "]".toList = [']'] :=
    ⟨rfl, rfl, rfl⟩
  have hlatches : " SB: ".toList = [' ', 'S', 'B', ':', ' '] ∧
      " RG: [".toList = [' ', 'R', 'G', ':', ' ', '['] ∧ " Z: ".toList = [' ', 'Z', ':', ' '] ∧
      ", ".toList = [',', ' '] := ⟨rfl, rfl, rfl, rfl⟩
  have hflag : (if s.isZero then "1" else "0").toList = [if s.isZero then '1' else '0'] := by
    cases s.isZero <;> rfl
  unfold line lineText registersText opcodeText
  simp only [String.toList_append, String.toList_intercalate, List.map_map, Function.comp_def,
    hcounter, hlatches, hflag, List.append_assoc, List.cons_append, List.nil_append]

theorem field_inj {mark : Char} {back back' : List Char} (h : IsField text) (h' : IsField text')
    (hmark : mark ≠ ' ' ∧ mark.isDigit = false ∧ mark ≠ '-')
    (heq : (padLeft width text).toList ++ mark :: back =
      (padLeft width text').toList ++ mark :: back') : text = text' ∧ back = back' := by
  obtain ⟨hfield, hback⟩ := append_cons_inj (notMem_padLeft h hmark) (notMem_padLeft h' hmark) heq
  exact ⟨padLeft_inj h.head h'.head hfield, hback⟩

theorem spaced_field_inj {mark : Char} {back back' : List Char} (h : IsField text)
    (h' : IsField text') (hmark : mark ≠ ' ' ∧ mark.isDigit = false ∧ mark ≠ '-')
    (heq : ((padLeft width text).toList ++ [' ']) ++ mark :: back =
      ((padLeft width text').toList ++ [' ']) ++ mark :: back') : text = text' ∧ back = back' := by
  have hfront {text : String} (h : IsField text) : mark ∉ (padLeft width text).toList ++ [' '] := by
    rw [List.mem_append, not_or]
    exact ⟨notMem_padLeft h hmark, fun hc => hmark.1 (List.mem_singleton.1 hc)⟩
  obtain ⟨hfield, hback⟩ := append_cons_inj (hfront h) (hfront h') heq
  exact ⟨padLeft_inj h.head h'.head (List.append_cancel_right hfield), hback⟩

theorem toNat_inj_of_toString {n n' : UInt64} (h : toString n.toNat = toString n'.toNat) :
    n = n' := by
  have hdigits : Nat.toDigits 10 n.toNat = Nat.toDigits 10 n'.toNat := by
    rw [← Nat.toList_repr, ← Nat.toList_repr]
    exact congrArg String.toList h
  apply UInt64.toNat_inj.1
  apply Option.some.inj
  rw [← digits?_toDigits, ← digits?_toDigits, hdigits]

theorem notMem_padRight_opcodeText (opcode : Option Opcode) :
    ']' ∉ (padRight width (opcodeText opcode)).toList := by
  simp only [padRight, fill, String.toList_append, String.toList_ofList, List.mem_append, not_or]
  refine ⟨notMem_opcodeText opcode (.inr rfl), fun hc => ?_⟩
  cases List.eq_of_mem_replicate hc

theorem notMem_registersText (values : List Int64) : ']' ∉ registersText values := by
  intro h
  obtain hc | ⟨text, ht, hc⟩ := mem_intercalate h
  · revert hc
    decide
  · obtain ⟨v, -, rfl⟩ := List.mem_map.1 ht
    obtain hdigit | hminus := isNumeral_of_mem hc
    · cases hdigit
    · cases hminus

/-- The line tells all of the snapshot. -/
theorem line_inj (h : s.line = s'.line) : s = s' := by
  have hline : s.lineText = s'.lineText := by rw [← toList_line, ← toList_line, h]
  unfold lineText at hline
  have hnat := isField_toString_nat
  have hint := isField_toString
  obtain ⟨htick, hline⟩ := spaced_field_inj (hnat _) (hnat _) (by decide)
    (List.append_cancel_left hline)
  obtain ⟨hcounter, hline⟩ := field_inj (hnat _) (hnat _) (by decide) hline
  obtain ⟨hopcode, hline⟩ := append_cons_inj (notMem_padRight_opcodeText _)
    (notMem_padRight_opcodeText _) (List.cons.inj hline).2
  rw [hcounter, List.append_cancel_left_eq, List.append_cancel_left_eq] at hline
  obtain ⟨haddress, hline⟩ := spaced_field_inj (hint _) (hint _) (by decide) hline
  simp only [List.cons.injEq, true_and] at hline
  obtain ⟨hbuffer, hline⟩ := spaced_field_inj (hint _) (hint _) (by decide) hline
  simp only [List.cons.injEq, true_and] at hline
  obtain ⟨hregisters, hline⟩ :=
    append_cons_inj (notMem_registersText _) (notMem_registersText _) hline
  simp only [List.cons.injEq, true_and, and_true] at hline
  have hopcode := opcodeText_inj (padRight_inj (notMem_opcodeText _ (.inl rfl))
    (notMem_opcodeText _ (.inl rfl)) hopcode)
  have hregisters := Array.toList_inj.1 (registersText_inj hregisters)
  have hflag : s.isZero = s'.isZero := by
    revert hline
    cases s.isZero <;> cases s'.isZero <;> decide
  cases s
  cases s'
  simp only [mk.injEq]
  exact ⟨toNat_inj_of_toString htick, toNat_inj_of_toString hcounter, hopcode,
    toString_inj haddress, toString_inj hbuffer, hregisters, hflag⟩

end Snapshot

theorem Machine.traceText_eq_iff {m m' : Machine} :
    m.traceText = m'.traceText ↔ m.snapshot = m'.snapshot := by
  rw [← line_snapshot, ← line_snapshot]
  exact ⟨Snapshot.line_inj, congrArg Snapshot.line⟩

end TickMachine
