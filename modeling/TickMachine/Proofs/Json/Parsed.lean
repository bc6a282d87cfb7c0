import TickMachine.Proofs.Alu
import TickMachine.Proofs.Json.Decoded
import TickMachine.Proofs.Json.Grammar
import TickMachine.Proofs.Json.RoundTrip

/-! The reader takes every token it is given into the value that it builds. What it has taken can be
told from what it waits for and what is still open, so a value is read from its own tokens only. -/

namespace TickMachine.Json

def ended {α : Type} (f : α → List Token) (xs : List α) : List Token :=
  xs.flatMap fun x => f x ++ [.comma]

def Frame.taken : Frame → List Token
  | .array elements => .openArray :: ended tokens elements.reverse
  | .object members key =>
    .openObject :: (ended memberToken members.reverse ++ [.string key, .colon])

def Goal.taken : Goal → List Token
  | .value | .element => []
  | .name members => .openObject :: ended memberToken members.reverse
  | .colon members key => .openObject :: (ended memberToken members.reverse ++ [.string key])
  | .rest v => v.tokens

/-- The innermost container stands in front in a stack, and its tokens come last. -/
def outer : List Frame → List Token
  | [] => []
  | frame :: stack => outer stack ++ frame.taken

def taken (s : Goal × List Frame) : List Token := outer s.2 ++ s.1.taken

variable {s s' : Goal × List Frame} {stack : List Frame} {toks : List Token} {token : Token}
  {v : Json} {text : List Char} {α : Type}

theorem ended_concat (f : α → List Token) (xs : List α) (x : α) :
    ended f (xs ++ [x]) = ended f xs ++ f x ++ [.comma] := by
  simp [ended]

theorem intercalate_concat (f : α → List Token) (xs : List α) (x : α) :
    [Token.comma].intercalate ((xs ++ [x]).map f) = ended f xs ++ f x := by
  induction xs with
  | nil => simp [ended]
  | cons y xs ih =>
    have hne : (xs ++ [x]).map f ≠ [] := by simp
    rw [List.cons_append, List.map_cons, List.intercalate_cons_of_ne_nil hne, ih]
    simp [ended]

theorem tokens_array_concat (elements : List Json) (v : Json) : (array (elements ++ [v])).tokens =
    .openArray :: (ended tokens elements ++ v.tokens ++ [.closeArray]) := by
  rw [tokens, elementTokens_eq, intercalate_concat]

theorem tokens_object_concat (members : List (Option String × Json)) (x : Option String × Json) :
    (object (members ++ [x])).tokens =
      .openObject :: (ended memberToken members ++ memberToken x ++ [.closeObject]) := by
  rw [tokens, memberTokens_eq, intercalate_concat]

theorem taken_beginValue (h : beginValue stack token = some s) :
    taken s = outer stack ++ [token] := by
  cases token with
  | null | bool b | number n | string text =>
    obtain rfl := Option.some.inj h
    rfl
  | openArray =>
    obtain rfl := Option.some.inj h
    exact List.append_nil _
  | openObject =>
    obtain rfl := Option.some.inj h
    rfl
  | closeArray | closeObject | comma | colon => cases h

theorem taken_accept (h : accept s token = some s') : taken s' = taken s ++ [token] := by
  unfold accept at h
  split at h
  · rw [taken_beginValue h, taken, Goal.taken, List.append_nil]
  · obtain rfl := Option.some.inj h
    simp [taken, outer, Frame.taken, Goal.taken, ended, tokens, elementTokens]
  · rw [taken_beginValue h, taken, Goal.taken, List.append_nil]
  · obtain rfl := Option.some.inj h
    simp [taken, Goal.taken, ended, tokens, memberTokens]
  · obtain rfl := Option.some.inj h
    simp [taken, Goal.taken]
  · obtain rfl := Option.some.inj h
    simp [taken, outer, Frame.taken, Goal.taken]
  · obtain rfl := Option.some.inj h
    simp [taken, outer, Frame.taken, Goal.taken, ended_concat]
  · obtain rfl := Option.some.inj h
    simp [taken, outer, Frame.taken, Goal.taken, tokens_array_concat]
  · obtain rfl := Option.some.inj h
    simp [taken, outer, Frame.taken, Goal.taken, ended_concat, memberToken]
  · obtain rfl := Option.some.inj h
    simp [taken, outer, Frame.taken, Goal.taken, tokens_object_concat, memberToken]
  · cases h

theorem taken_foldlM (h : toks.foldlM accept s = some s') : taken s' = taken s ++ toks := by
  induction toks generalizing s with
  | nil =>
    obtain rfl := Option.some.inj h
    rw [List.append_nil]
  | cons token toks ih =>
    rw [List.foldlM_cons] at h
    obtain ⟨s₁, hstep, h⟩ := Option.bind_eq_some_iff.1 h
    rw [ih h, taken_accept hstep, List.append_assoc]
    rfl

theorem read?_eq_some_iff : read? text = some v ↔ Lexed text v.tokens := by
  refine Iff.trans ⟨fun h => ?_, read?_of_tokens⟩ tokens?_eq_some_iff
  obtain ⟨toks, htoks, h⟩ := Option.bind_eq_some_iff.1 h
  obtain ⟨⟨goal, stack⟩, hfold, h⟩ := Option.bind_eq_some_iff.1 h
  have htaken := taken_foldlM hfold
  split at h
  · next v' heq =>
    obtain rfl := Option.some.inj h
    obtain ⟨rfl, rfl⟩ := Prod.mk.inj heq
    rw [htoks]
    exact congrArg some htaken.symm
  · cases h

/-! ### Integers -/

def IsProper (v : Json) : Prop := ∀ n, Token.number n ∈ v.tokens → n.IsProper

theorem isProper_of_bare {piece : List Char} {n : Numeral} (h : bare? piece = some (.number n)) :
    n.IsProper := by
  unfold bare? at h
  split at h
  · cases h
  · split at h
    · cases h
    · split at h
      · cases h
      · obtain ⟨_, hread, h⟩ := Option.map_eq_some_iff.1 h
        cases h
        exact Numeral.isProper_of_read hread

theorem Lexed.isProper (h : Lexed text toks) {n : Numeral} (hn : .number n ∈ toks) :
    n.IsProper := by
  induction h with
  | nil => cases hn
  | gap _ _ ih => exact ih hn
  | @mark c _ token _ hc _ ih =>
    rcases List.mem_cons.1 hn with rfl | hn
    · unfold mark? at hc
      split at hc <;> cases hc
    · exact ih hn
  | bare hpiece _ _ _ ih =>
    rcases List.mem_cons.1 hn with rfl | hn
    · exact isProper_of_bare hpiece
    · exact ih hn
  | string _ _ ih =>
    rcases List.mem_cons.1 hn with h | hn
    · cases h
    · exact ih hn

theorem mem_intercalate_of_mem {pieces : List (List Token)} {piece : List Token}
    (h : piece ∈ pieces) (ht : token ∈ piece) : token ∈ [Token.comma].intercalate pieces := by
  induction pieces with
  | nil => cases h
  | cons first pieces ih =>
    cases pieces with
    | nil =>
      obtain rfl := List.mem_singleton.1 h
      rwa [List.intercalate_singleton]
    | cons second pieces =>
      rw [List.intercalate_cons_cons, List.append_assoc, List.mem_append]
      rcases List.mem_cons.1 h with rfl | h
      · exact .inl ht
      · exact .inr (List.mem_cons_of_mem _ (ih h))

theorem IsProper.element {elements : List Json} (h : (array elements).IsProper)
    (hv : v ∈ elements) : v.IsProper := by
  intro n hn
  refine h n ?_
  rw [tokens, elementTokens_eq]
  refine List.mem_cons_of_mem _ (List.mem_append_left _ ?_)
  exact mem_intercalate_of_mem (List.mem_map_of_mem hv) hn

theorem IsProper.member {members : List (Option String × Json)} {x : Option String × Json}
    (h : (object members).IsProper) (hx : x ∈ members) : x.2.IsProper := by
  intro n hn
  refine h n ?_
  rw [tokens, memberTokens_eq]
  refine List.mem_cons_of_mem _ (List.mem_append_left _ ?_)
  refine mem_intercalate_of_mem (List.mem_map_of_mem hx) ?_
  exact List.mem_cons_of_mem _ (List.mem_cons_of_mem _ hn)

theorem int?_eq_some_iff {k : Int} (h : v.IsProper) : v.int? = some k ↔ v = ofInt k := by
  cases v with
  | number n =>
    rw [int?, Numeral.toInt?_eq_some_iff (h n (List.mem_singleton_self _)), ofInt, number.injEq]
  | null | bool b | string text | array elements | object members => simp [int?, ofInt]

theorem unsigned64?_eq_some_iff {n : Int} {k : UInt64} :
    Numeric.unsigned64? n = some k ↔ n = k.toNat := by
  refine ⟨fun h => ?_, fun h => h ▸ Numeric.unsigned64?_toNat k⟩
  unfold Numeric.unsigned64? at h
  split at h
  · next hn =>
    obtain rfl := Option.some.inj h
    have hlt : n.toNat < UInt64.size := by omega
    rw [UInt64.toNat_ofNat_of_lt' hlt, Int.toNat_of_nonneg hn.1]
  · cases h

theorem uint64?_eq_some_iff {k : UInt64} (h : v.IsProper) :
    v.uint64? = some k ↔ v = ofInt k.toNat := by
  rw [uint64?, ← int?_eq_some_iff h, Option.bind_eq_bind, Option.bind_eq_some_iff]
  simp only [unsigned64?_eq_some_iff, exists_eq_right]

theorem int64?_eq_some_iff {k : Int64} (h : v.IsProper) :
    v.int64? = some k ↔ v = ofInt k.toInt := by
  rw [int64?, ← int?_eq_some_iff h, Option.bind_eq_bind, Option.bind_eq_some_iff]
  simp only [Numeric.signed64?_eq_some_iff, eq_comm (a := k.toInt), exists_eq_right]

theorem integers_eq_some_iff {ks : List Int64} (h : v.IsProper) :
    v.list? int64? = some ks ↔ v = array (ks.map fun k => ofInt k.toInt) := by
  cases v with
  | array elements =>
    rw [list?, mapM_eq_some_iff fun _ hv _ => int64?_eq_some_iff (h.element hv), array.injEq,
      ← List.forall₂_map_right_iff (R := Eq), List.forall₂_eq_eq_eq]
  | null | bool b | number n | string text | object members => simp [list?]

end TickMachine.Json
