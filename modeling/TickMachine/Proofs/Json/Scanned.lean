import TickMachine.Proofs.Json.Numeral

/-! Written values fall apart into their tokens again. Each piece of a text yields its tokens
whatever stands around it, as long as no numeral or word is glued to its end, so the tokens of a
text are those of its pieces in order. -/

namespace TickMachine.Json

mutual

def tokens : Json → List Token
  | .null => [.null]
  | .bool b => [.bool b]
  | .number n => [.number n]
  | .string text => [.string text]
  | .array elements =>
    .openArray :: ([.comma].intercalate (elementTokens elements) ++ [.closeArray])
  | .object members =>
    .openObject :: ([.comma].intercalate (memberTokens members) ++ [.closeObject])

def elementTokens : List Json → List (List Token)
  | [] => []
  | v :: elements => v.tokens :: elementTokens elements

def memberTokens : List (Option String × Json) → List (List Token)
  | [] => []
  | (name, v) :: members => (.string name :: .colon :: v.tokens) :: memberTokens members

end

inductive IsSimple : Json → Prop
  | null : IsSimple .null
  | bool (b : Bool) : IsSimple (.bool b)
  | ofInt (n : Int) : IsSimple (.ofInt n)
  | ofText (text : String) : IsSimple (.ofText text)
  | array {elements : List Json} (h : ∀ v ∈ elements, IsSimple v) : IsSimple (.array elements)
  | object {members : List (Option String × Json)} (hname : ∀ x ∈ members, x.1.isSome)
      (h : ∀ x ∈ members, IsSimple x.2) : IsSimple (.object members)

theorem isSimple_record {members : List (String × Json)} (h : ∀ x ∈ members, IsSimple x.2) :
    IsSimple (.record members) := by
  refine .object (List.forall_mem_map.2 fun _ _ => rfl) (List.forall_mem_map.2 h)

def tokensFrom (scan : Scan × List Token) (text : List Char) : Option (List Token) := do
  match ← text.foldlM Scan.next scan with
  | (.between, tokens) => return tokens.reverse
  | (.bare taken, tokens) => return ((← bare? taken.reverse) :: tokens).reverse
  | _ => none

variable {text rest blanks : List Char} {found : List Token} {toks : List Token} {c : Char}
  {units : List Nat}

theorem tokens?_eq_tokensFrom : tokens? text = tokensFrom (.between, []) text := rfl

theorem tokensFrom_cons {scan : Scan × List Token} :
    tokensFrom scan (c :: rest) = (Scan.next scan c).bind (tokensFrom · rest) := by
  rw [tokensFrom, List.foldlM_cons]
  cases Scan.next scan c <;> rfl

def Stops (rest : List Char) : Prop := ∀ c, rest.head? = some c → isBare c = false

def Yields (text : List Char) (toks : List Token) : Prop :=
  ∀ found rest, Stops rest →
    tokensFrom (.between, found) (text ++ rest) = tokensFrom (.between, toks.reverse ++ found) rest

theorem stops_cons (h : isBare c = false) : Stops (c :: rest) := by
  intro d hd
  rwa [← Option.some.inj hd]

theorem yields_nil : Yields [] [] := fun _ _ _ => rfl

theorem Yields.append {text' : List Char} {toks' : List Token} (h : Yields text toks)
    (hc : isBare c = false) (h' : Yields (c :: text') toks') :
    Yields (text ++ c :: text') (toks ++ toks') := by
  intro found rest hrest
  have hstops : Stops (c :: text' ++ rest) := stops_cons hc
  rw [List.append_assoc, h _ _ hstops, h' _ _ hrest, List.reverse_append, List.append_assoc]

theorem Yields.punctuation {token : Token} (h : Yields text toks)
    (hc : ∀ found, Scan.begin found c = some (.between, token :: found)) :
    Yields (c :: text) (token :: toks) := by
  intro found rest hrest
  rw [List.cons_append, tokensFrom_cons, Scan.next, hc, Option.bind_some, h _ _ hrest,
    List.reverse_cons, List.append_assoc]
  rfl

theorem Yields.blank (h : Yields text toks)
    (hc : ∀ found, Scan.begin found c = some (.between, found)) : Yields (c :: text) toks := by
  intro found rest hrest
  rw [List.cons_append, tokensFrom_cons, Scan.next, hc, Option.bind_some, h _ _ hrest]

theorem Yields.tokens? (h : Yields text toks) : tokens? text = some toks := by
  have hnil := h [] [] nofun
  rw [List.append_nil, List.append_nil] at hnil
  rw [tokens?_eq_tokensFrom, hnil]
  exact congrArg some (List.reverse_reverse toks)

/-! ### Numerals and words -/

theorem begin_bare (h : isBare c) : Scan.begin found c = some (.bare [c], found) := by
  unfold Scan.begin
  split <;> first | exact absurd h (by decide) | exact if_pos h

theorem tokensFrom_bare (taken : List Char) (h : ∀ c ∈ text, isBare c) :
    tokensFrom (.bare taken, found) (text ++ rest) =
      tokensFrom (.bare (text.reverse ++ taken), found) rest := by
  induction text generalizing taken with
  | nil => rfl
  | cons c text ih =>
    have hc : isBare c := h c (List.mem_cons_self ..)
    have htext := ih (c :: taken) fun x hx => h x (List.mem_cons_of_mem _ hx)
    rw [List.cons_append, tokensFrom_cons, Scan.next, if_pos hc, List.reverse_cons,
      List.append_assoc]
    exact htext

theorem tokensFrom_bare_stops {taken : List Char} {token : Token} (hrest : Stops rest)
    (h : bare? taken.reverse = some token) :
    tokensFrom (.bare taken, found) rest = tokensFrom (.between, token :: found) rest := by
  cases rest with
  | nil =>
    show (do return ((← bare? taken.reverse) :: found).reverse) = _
    rw [h]
    rfl
  | cons c rest =>
    have hc : ¬ isBare c := by simp [hrest c rfl]
    have hnext : Scan.next (.bare taken, found) c = Scan.begin (token :: found) c := by
      rw [Scan.next, if_neg hc, h]
      rfl
    rw [tokensFrom_cons, tokensFrom_cons, hnext]
    rfl

theorem yields_bare {token : Token} (hne : text ≠ []) (hbare : ∀ c ∈ text, isBare c)
    (h : bare? text = some token) : Yields text [token] := by
  intro found rest hrest
  cases text with
  | nil => exact absurd rfl hne
  | cons c text =>
    rw [List.cons_append, tokensFrom_cons, Scan.next, begin_bare (hbare c (List.mem_cons_self ..)),
      Option.bind_some, tokensFrom_bare _ fun x hx => hbare x (List.mem_cons_of_mem _ hx)]
    refine tokensFrom_bare_stops hrest ?_
    rw [List.reverse_append, List.reverse_reverse]
    exact h

theorem isBare_of_isDigit (h : c.isDigit) : isBare c := by
  simp [isBare, Char.isAlphanum, h]

theorem yields_ofInt (n : Int) : Yields (Numeral.ofInt n).write [.number (.ofInt n)] := by
  have hdigit : ∀ c ∈ Nat.toDigits 10 n.natAbs, isBare c := fun c hc =>
    isBare_of_isDigit (Text.isDigit_of_mem_toDigits hc)
  have hbare : ∀ c ∈ (Numeral.ofInt n).write, isBare c := by
    rw [Numeral.write_ofInt]
    split
    · exact List.forall_mem_cons.2 ⟨rfl, hdigit⟩
    · exact hdigit
  have hread := Numeral.read_write_ofInt n
  have hword (word : List Char) (hw : Numeral.read? word = none) :
      (Numeral.ofInt n).write ≠ word := by
    intro h
    rw [h, hw] at hread
    cases hread
  refine yields_bare ?_ hbare ?_
  · rw [Numeral.write_ofInt]
    exact List.append_ne_nil_of_right_ne_nil _ Nat.toDigits_ne_nil
  · rw [bare?, if_neg (hword _ rfl), if_neg (hword _ rfl), if_neg (hword _ rfl), hread]
    rfl

/-! ### Strings -/

theorem hexDigit?_hexDigit {d : Nat} (h : d < 16) : hexDigit? (hexDigit d) = some d := by
  revert d
  decide

theorem tokensFrom_escape (c : Char) (rest : List Char) :
    tokensFrom (.quoted units, found) (escape c ++ rest) =
      tokensFrom (.quoted (c.toNat :: units), found) rest := by
  unfold escape
  split
  any_goals rfl
  next hquote hback _ _ _ _ _ =>
    split
    · have hhigh := hexDigit?_hexDigit (d := c.toNat / 16) (by omega)
      have hlow := hexDigit?_hexDigit (d := c.toNat % 16) (by omega)
      have hzero : hexDigit? '0' = some 0 := rfl
      have hcode : 16 * (c.toNat / 16) + c.toNat % 16 = c.toNat := by omega
      simp [tokensFrom_cons, Scan.next, hzero, hhigh, hlow, hcode]
    · next hcontrol =>
      rw [List.singleton_append, tokensFrom_cons, Scan.next, if_neg hquote, if_neg hback,
        if_neg hcontrol]
      rfl

theorem tokensFrom_flatMap_escape (text rest : List Char) :
    tokensFrom (.quoted units, found) (text.flatMap escape ++ rest) =
      tokensFrom (.quoted ((text.map Char.toNat).reverse ++ units), found) rest := by
  induction text generalizing units with
  | nil => rfl
  | cons c text ih =>
    rw [List.flatMap_cons, List.append_assoc, tokensFrom_escape, ih, List.map_cons,
      List.reverse_cons, List.append_assoc]
    rfl

theorem characters?_toNat (text : List Char) : characters? (text.map Char.toNat) = some text := by
  induction text with
  | nil => rfl
  | cons c text ih =>
    have hvalid : c.toNat < 0xD800 ∨ 0xE000 ≤ c.toNat := by
      rcases c.valid with h | h
      · exact .inl h
      · exact .inr (Nat.lt_of_succ_le h.1)
    have hlead : isLeadSurrogate c.toNat = false := by
      simp [isLeadSurrogate]
      omega
    have htrail : isTrailSurrogate c.toNat = false := by
      simp [isTrailSurrogate]
      omega
    unfold characters?
    simp [hlead, htrail, ih]

theorem yields_quote (text : String) : Yields (quote text.toList) [.string (some text)] := by
  intro found rest _
  have htoken : stringToken ((text.toList.map Char.toNat).reverse ++ []) = .string (some text) := by
    rw [stringToken, List.append_nil, List.reverse_reverse, characters?_toNat]
    exact congrArg (Token.string ∘ some) String.ofList_toList
  show tokensFrom (.quoted [], found) (_ ++ ['"'] ++ rest) = _
  rw [List.append_assoc, tokensFrom_flatMap_escape, ← htoken]
  rfl

/-! ### Arrays and objects -/

theorem yields_intercalate {α : Type} {xs : List α} {f : α → List Char} {g : α → List Token}
    (hblanks : ∀ text toks, Yields text toks → Yields (blanks ++ text) toks)
    (h : ∀ x ∈ xs, Yields (f x) (g x)) :
    Yields ((',' :: blanks).intercalate (xs.map f)) ([.comma].intercalate (xs.map g)) := by
  induction xs with
  | nil => exact yields_nil
  | cons x xs ih =>
    have hx := h x (List.mem_cons_self ..)
    cases xs with
    | nil => simpa using hx
    | cons y ys =>
      have hrest := hblanks _ _ (ih fun z hz => h z (List.mem_cons_of_mem _ hz))
      simp only [List.map_cons, List.intercalate_cons_cons, List.append_assoc] at hrest ⊢
      exact hx.append rfl (hrest.punctuation fun _ => rfl)

theorem eq_intercalate {α : Type} {f : α → List Char} {joined : List α → List Char}
    (hnil : joined [] = []) (hone : ∀ x, joined [x] = f x)
    (hcons : ∀ x y xs, joined (x :: y :: xs) = f x ++ ',' :: joined (y :: xs)) (xs : List α) :
    joined xs = [','].intercalate (xs.map f) := by
  induction xs with
  | nil => exact hnil
  | cons x xs ih =>
    cases xs with
    | nil => rw [hone, List.map_singleton, List.intercalate_singleton]
    | cons y ys =>
      rw [hcons, ih]
      simp [List.intercalate_cons_cons]

def writeMember (x : Option String × Json) : List Char := writeText x.1 ++ ':' :: x.2.write

def memberToken (x : Option String × Json) : List Token := .string x.1 :: .colon :: x.2.tokens

theorem writeElements_eq (elements : List Json) :
    writeElements elements = [','].intercalate (elements.map write) :=
  eq_intercalate rfl (fun _ => rfl) (fun _ _ _ => rfl) elements

theorem writeMembers_eq (members : List (Option String × Json)) :
    writeMembers members = [','].intercalate (members.map writeMember) :=
  eq_intercalate rfl (fun _ => rfl)
    (fun _ _ _ => (List.append_assoc _ (_ :: _) _).symm) members

theorem elementTokens_eq (elements : List Json) :
    elementTokens elements = elements.map tokens := by
  induction elements with
  | nil => rfl
  | cons v elements ih => rw [elementTokens, ih, List.map_cons]

theorem memberTokens_eq (members : List (Option String × Json)) :
    memberTokens members = members.map memberToken := by
  induction members with
  | nil => rfl
  | cons x members ih => rw [memberTokens, ih, List.map_cons]; rfl

theorem yields_member {x : Option String × Json} (hname : x.1.isSome)
    (h : Yields x.2.write x.2.tokens) : Yields (writeMember x) (memberToken x) := by
  obtain ⟨name, v⟩ := x
  obtain ⟨text, rfl⟩ := Option.isSome_iff_exists.1 hname
  exact (yields_quote text).append rfl (h.punctuation fun _ => rfl)

theorem yields_array (h : Yields text toks) :
    Yields ('[' :: (text ++ [']'])) (.openArray :: (toks ++ [.closeArray])) :=
  (h.append rfl (yields_nil.punctuation fun _ => rfl)).punctuation fun _ => rfl

theorem yields_object (h : Yields text toks) :
    Yields ('{' :: (text ++ ['}'])) (.openObject :: (toks ++ [.closeObject])) :=
  (h.append rfl (yields_nil.punctuation fun _ => rfl)).punctuation fun _ => rfl

theorem yields_write {v : Json} (h : v.IsSimple) : Yields v.write v.tokens := by
  induction h with
  | null => exact yields_bare (List.cons_ne_nil _ _) (List.all_eq_true.1 rfl) rfl
  | bool b => cases b <;> exact yields_bare (List.cons_ne_nil _ _) (List.all_eq_true.1 rfl) rfl
  | ofInt n => exact yields_ofInt n
  | ofText text => exact yields_quote text
  | @array elements _ ih =>
    rw [write, tokens, writeElements_eq, elementTokens_eq]
    exact yields_array (yields_intercalate (fun _ _ h => h) ih)
  | @object members hname _ ih =>
    rw [write, tokens, writeMembers_eq, memberTokens_eq]
    exact yields_object
      (yields_intercalate (fun _ _ h => h) fun x hx => yields_member (hname x hx) (ih x hx))

end TickMachine.Json
