import TickMachine.Proofs.Image.Stored
import TickMachine.Proofs.Isa.Format

/-! The format of stored images and the order in which a fault is looked for. -/

namespace TickMachine.Image

open Json

inductive Entry.StoredAs : Entry → Json → Prop
  | length (n : UInt64) : StoredAs (.length n) (.ofInt n.toNat)
  | word {w : Word} {v : Json} (h : w.StoredAs v) : StoredAs (.word w) v

/-- The text of an array of entries. It may not nest too deep, and every string and number in it has
to be one that can be read, even where it is ignored. -/
def Lists (text : List Char) (entries : List Entry) : Prop :=
  ∃ elements, Lexed text (Json.array elements).tokens ∧ (Json.array elements).isPortable ∧
    List.Forall₂ (fun v entry => entry.StoredAs v) elements entries

/-- What is made of a list of entries. The faults stand in the order in which they are found: none
of them applies where one above it does. -/
inductive Verdict : List Entry → Except Fault Image → Prop
  | empty : Verdict [] (.error (.badHeader .empty))
  | notLength (w : Word) (entries : List Entry) :
      Verdict (.word w :: entries) (.error (.badHeader .notLength))
  | unexpectedInteger (n : UInt64) (ws : List Word) (k : UInt64) (entries : List Entry) :
      Verdict (.length n :: (ws.map .word ++ .length k :: entries))
        (.error (.unexpectedInteger (ws.length + 1)))
  | tooLong {n : UInt64} {ws : List Word} (h : ws.length < n.toNat) :
      Verdict (.length n :: ws.map .word) (.error (.badHeader (.tooLong n ws.length)))
  | misplacedData {n : UInt64} {before after code : List Word} {w : Word}
      (hn : n.toNat = (before ++ w :: after).length) (hbefore : ∀ c ∈ before, c.IsCell)
      (hw : w.opcode.isData = false) :
      Verdict (.length n :: ((before ++ w :: after) ++ code).map .word)
        (.error (.misplaced .data w.index w.opcode))
  | emptyCell {n : UInt64} {before after code : List Word} {w : Word}
      (hn : n.toNat = (before ++ w :: after).length) (hbefore : ∀ c ∈ before, c.IsCell)
      (hw : w.opcode.isData) (hargs : w.args = []) :
      Verdict (.length n :: ((before ++ w :: after) ++ code).map .word)
        (.error (.emptyCell w.index))
  | misplacedCode {n : UInt64} {data before after : List Word} {w : Word}
      (hn : n.toNat = data.length) (hdata : ∀ c ∈ data, c.IsCell)
      (hbefore : ∀ c ∈ before, c.opcode.isData = false) (hw : w.opcode.isData) :
      Verdict (.length n :: (data ++ (before ++ w :: after)).map .word)
        (.error (.misplaced .code w.index w.opcode))
  | accepted {n : UInt64} {data code : List Word} (hn : n.toNat = data.length)
      (hdata : ∀ c ∈ data, c.IsCell) (hcode : ∀ c ∈ code, c.opcode.isData = false) :
      Verdict (.length n :: (data ++ code).map .word) (.ok ⟨data, code⟩)

variable {v : Json} {entry : Entry} {entries : List Entry} {text : List Char} {image : Image}
  {fault : Fault} {w : Word} {r : Except Fault Image}

theorem entryOf?_eq_some_iff (hv : v.IsProper) : entryOf? v = some entry ↔ entry.StoredAs v := by
  constructor
  · intro h
    unfold entryOf? at h
    split at h
    · next n hn =>
      obtain rfl := Option.some.inj h
      obtain rfl := (uint64?_eq_some_iff hv).1 hn
      exact .length n
    · obtain ⟨w, hw, rfl⟩ := Option.map_eq_some_iff.1 h
      exact .word ((Word.ofJson?_eq_some_iff hv).1 hw)
  · rintro (n | hw)
    · rw [entryOf?, (uint64?_eq_some_iff hv).2 rfl]
    · rw [entryOf?, hw.uint64?_eq_none, (Word.ofJson?_eq_some_iff hv).2 hw]
      rfl

theorem entries?_eq_some_iff : entries? text = some entries ↔ Lists text entries := by
  simp only [entries?, Option.bind_eq_bind, Option.bind_eq_some_iff, Option.guard_eq_some',
    read?_eq_some_iff]
  constructor
  · rintro ⟨v, hlexed, _, hportable, hlist⟩
    cases v with
    | array elements =>
      have hproper : (Json.array elements).IsProper := fun _ => hlexed.isProper
      rw [list?, mapM_eq_some_iff fun _ hv _ => entryOf?_eq_some_iff (hproper.element hv)] at hlist
      exact ⟨elements, hlexed, hportable, hlist⟩
    | null | bool b | number n | string text | object members => cases hlist
  · rintro ⟨elements, hlexed, hportable, hlist⟩
    have hproper : (Json.array elements).IsProper := fun _ => hlexed.isProper
    refine ⟨_, hlexed, (), hportable, ?_⟩
    rwa [list?, mapM_eq_some_iff fun _ hv _ => entryOf?_eq_some_iff (hproper.element hv)]

theorem checkData_eq_error_iff : checkData w = .error fault ↔
    (w.opcode.isData = false ∧ fault = .misplaced .data w.index w.opcode) ∨
      (w.opcode.isData ∧ w.args = [] ∧ fault = .emptyCell w.index) := by
  rw [checkData]
  cases w.opcode.isData <;> by_cases h : w.args = [] <;> simp [h, eq_comm]

theorem checkCode_eq_error_iff : checkCode w = .error fault ↔
    w.opcode.isData ∧ fault = .misplaced .code w.index w.opcode := by
  rw [checkCode]
  cases w.opcode.isData <;> simp [eq_comm]

theorem check_eq_error_iff : image.check = .error fault ↔
    (∃ before w after, image.data = before ++ w :: after ∧ (∀ c ∈ before, c.IsCell) ∧
      checkData w = .error fault) ∨
    (∀ c ∈ image.data, c.IsCell) ∧ ∃ before w after, image.code = before ++ w :: after ∧
      (∀ c ∈ before, c.opcode.isData = false) ∧ checkCode w = .error fault := by
  have hdata : image.data.forM checkData = .ok () ↔ ∀ c ∈ image.data, c.IsCell := by
    simp only [except_forM_eq_ok_iff, checkData_eq_ok_iff]
  rw [check, except_bind_eq_error_iff, except_forM_eq_error_iff]
  simp only [checkData_eq_ok_iff]
  refine or_congr_right ⟨?_, ?_⟩
  · rintro ⟨_, hall, h⟩
    obtain ⟨before, w, after, hcode, hbefore, hw⟩ := except_forM_eq_error_iff.1 h
    exact ⟨hdata.1 hall, before, w, after, hcode,
      fun c hc => checkCode_eq_ok_iff.1 (hbefore c hc), hw⟩
  · rintro ⟨hall, before, w, after, hcode, hbefore, hw⟩
    refine ⟨(), hdata.2 hall, except_forM_eq_error_iff.2 ⟨before, w, after, hcode, ?_, hw⟩⟩
    exact fun c hc => checkCode_eq_ok_iff.2 (hbefore c hc)

theorem words_integer (position : Nat) (ws : List Word) (k : UInt64) (rest : List Entry) :
    words position (ws.map .word ++ .length k :: rest) =
      .error (.unexpectedInteger (position + ws.length)) := by
  induction ws generalizing position with
  | nil => rfl
  | cons w ws ih =>
    rw [List.map_cons, List.cons_append, words, ih, List.length_cons, Nat.add_right_comm,
      Nat.add_assoc]
    rfl

theorem entries_cases (entries : List Entry) :
    (∃ ws : List Word, entries = ws.map .word) ∨
      ∃ (ws : List Word) (k : UInt64) (rest : List Entry),
        entries = ws.map .word ++ .length k :: rest := by
  induction entries with
  | nil => exact .inl ⟨[], rfl⟩
  | cons entry entries ih =>
    cases entry with
    | length k => exact .inr ⟨[], k, entries, rfl⟩
    | word w =>
      rcases ih with ⟨ws, rfl⟩ | ⟨ws, k, rest, rfl⟩
      · exact .inl ⟨w :: ws, rfl⟩
      · exact .inr ⟨w :: ws, k, rest, rfl⟩

theorem verdict_check {n : UInt64} {data : List Word} (code : List Word)
    (hn : n.toNat = data.length) :
    Verdict (.length n :: (data ++ code).map .word)
      (check ⟨data, code⟩ >>= fun _ => .ok ⟨data, code⟩) := by
  cases hcheck : check ⟨data, code⟩ with
  | ok u =>
    obtain ⟨hdata, hcode⟩ := check_eq_ok_iff.1 hcheck
    exact .accepted hn hdata hcode
  | error fault =>
    rcases check_eq_error_iff.1 hcheck with ⟨before, w, after, hdata, hbefore, hw⟩ |
      ⟨hdata, before, w, after, hcode, hbefore, hw⟩
    · dsimp only at hdata
      subst hdata
      rcases checkData_eq_error_iff.1 hw with ⟨htag, rfl⟩ | ⟨htag, hargs, rfl⟩
      · exact .misplacedData hn hbefore htag
      · exact .emptyCell hn hbefore htag hargs
    · dsimp only at hcode
      subst hcode
      obtain ⟨htag, rfl⟩ := checkCode_eq_error_iff.1 hw
      exact .misplacedCode hn hdata hbefore htag

theorem ofEntries_tooLong {n : UInt64} {ws : List Word} (h : ws.length < n.toNat) :
    ofEntries (.length n :: ws.map .word) = .error (.badHeader (.tooLong n ws.length)) := by
  rw [ofEntries, words_map]
  exact if_pos h

theorem ofEntries_integer (n : UInt64) (ws : List Word) (k : UInt64) (rest : List Entry) :
    ofEntries (.length n :: (ws.map .word ++ .length k :: rest)) =
      .error (.unexpectedInteger (ws.length + 1)) := by
  rw [ofEntries, words_integer, Nat.add_comm]
  rfl

theorem verdict_ofEntries (entries : List Entry) : Verdict entries (ofEntries entries) := by
  rcases entries with _ | ⟨n | w, entries⟩
  · exact .empty
  · rcases entries_cases entries with ⟨ws, rfl⟩ | ⟨ws, k, rest, rfl⟩
    · rcases Nat.lt_or_ge ws.length n.toNat with h | h
      · rw [ofEntries_tooLong h]
        exact .tooLong h
      · have hn : n.toNat = (ws.take n.toNat).length := (List.length_take_of_le h).symm
        have hverdict := verdict_check (ws.drop n.toNat) hn
        rw [← ofEntries_words ⟨ws.take n.toNat, ws.drop n.toNat⟩ hn] at hverdict
        rwa [List.take_append_drop] at hverdict
    · rw [ofEntries_integer]
      exact .unexpectedInteger n ws k rest
  · exact .notLength w entries

theorem ofEntries_eq_iff : ofEntries entries = r ↔ Verdict entries r := by
  refine ⟨fun h => h ▸ verdict_ofEntries entries, fun h => ?_⟩
  have hchecked {n : UInt64} {data code : List Word} {fault : Fault} (hn : n.toNat = data.length)
      (h : check ⟨data, code⟩ = .error fault) :
      ofEntries (.length n :: (data ++ code).map .word) = .error fault := by
    rw [ofEntries_words ⟨data, code⟩ hn, h]
    rfl
  cases h with
  | empty => rfl
  | notLength => rfl
  | unexpectedInteger => exact ofEntries_integer _ _ _ _
  | tooLong h => exact ofEntries_tooLong h
  | misplacedData hn hbefore hw =>
    refine hchecked hn (check_eq_error_iff.2 (.inl ⟨_, _, _, rfl, hbefore, ?_⟩))
    exact checkData_eq_error_iff.2 (.inl ⟨hw, rfl⟩)
  | emptyCell hn hbefore hw hargs =>
    refine hchecked hn (check_eq_error_iff.2 (.inl ⟨_, _, _, rfl, hbefore, ?_⟩))
    exact checkData_eq_error_iff.2 (.inr ⟨hw, hargs, rfl⟩)
  | misplacedCode hn hdata hbefore hw =>
    refine hchecked hn (check_eq_error_iff.2 (.inr ⟨hdata, _, _, _, rfl, hbefore, ?_⟩))
    exact checkCode_eq_error_iff.2 ⟨hw, rfl⟩
  | @accepted n data code hn hdata hcode =>
    rw [ofEntries_words ⟨data, code⟩ hn, check_eq_ok_iff.2 ⟨hdata, hcode⟩]
    rfl

theorem read_eq_iff : read text = r ↔
    (∃ entries, Lists text entries ∧ Verdict entries r) ∨
      (∀ entries, ¬ Lists text entries) ∧ r = .error .malformed := by
  simp only [← entries?_eq_some_iff, ← ofEntries_eq_iff]
  rw [read]
  cases entries? text with
  | none => simp [eq_comm]
  | some entries => simp

end TickMachine.Image
