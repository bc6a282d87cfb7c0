import TickMachine.Proofs.Json.Scanned

/-! What a JSON text is made of. The tokens that are found in a text are the ones that the grammar
gives it, and the grammar gives tokens to no other texts. -/

namespace TickMachine.Json

def isGap (c : Char) : Bool := c == ' ' || c == '\t' || c == '\n' || c == '\r'

def mark? : Char → Option Token
  | '[' => some .openArray
  | ']' => some .closeArray
  | '{' => some .openObject
  | '}' => some .closeObject
  | ',' => some .comma
  | ':' => some .colon
  | _ => none

def hexNumber? (start : Nat) (digits : List Char) : Option Nat :=
  digits.foldlM (fun value c => (hexDigit? c).map (16 * value + ·)) start

inductive Spelled : List Char → List Nat → Prop
  | nil : Spelled [] []
  | plain {c body units} (hquote : c ≠ '"') (hback : c ≠ '\\') (hcontrol : 0x20 ≤ c.toNat)
      (h : Spelled body units) : Spelled (c :: body) (c.toNat :: units)
  | escape {c e body units} (he : escaped? c = some e) (h : Spelled body units) :
      Spelled ('\\' :: c :: body) (e.toNat :: units)
  | code {digits unit body units} (hlength : digits.length = 4)
      (hunit : hexNumber? 0 digits = some unit) (h : Spelled body units) :
      Spelled ('\\' :: 'u' :: (digits ++ body)) (unit :: units)

/-- A text with its tokens. A numeral or word is as long as it can be. -/
inductive Lexed : List Char → List Token → Prop
  | nil : Lexed [] []
  | gap {c text toks} (hc : isGap c) (h : Lexed text toks) : Lexed (c :: text) toks
  | mark {c text token toks} (hc : mark? c = some token) (h : Lexed text toks) :
      Lexed (c :: text) (token :: toks)
  | bare {piece rest token toks} (hpiece : bare? piece = some token) (hbare : ∀ c ∈ piece, isBare c)
      (hstops : Stops rest) (h : Lexed rest toks) : Lexed (piece ++ rest) (token :: toks)
  | string {body units rest toks} (hbody : Spelled body units) (h : Lexed rest toks) :
      Lexed ('"' :: (body ++ '"' :: rest)) (.string ((characters? units).map String.ofList) :: toks)

variable {text rest body : List Char} {found toks all : List Token} {token : Token} {c : Char}
  {units : List Nat}

theorem begin_cases {scan : Scan × List Token} (h : Scan.begin found c = some scan) :
    (isGap c ∧ scan = (.between, found)) ∨
    (∃ token, mark? c = some token ∧ scan = (.between, token :: found)) ∨
    (c = '"' ∧ scan = (.quoted [], found)) ∨ (isBare c ∧ scan = (.bare [c], found)) := by
  unfold Scan.begin at h
  split at h
  all_goals first
    | exact .inl ⟨rfl, (Option.some.inj h).symm⟩
    | exact .inr (.inl ⟨_, rfl, (Option.some.inj h).symm⟩)
    | exact .inr (.inr (.inl ⟨rfl, (Option.some.inj h).symm⟩))
    | skip
  split at h
  · next hc => exact .inr (.inr (.inr ⟨hc, (Option.some.inj h).symm⟩))
  · cases h

theorem begin_gap (hc : isGap c) : Scan.begin found c = some (.between, found) := by
  simp only [isGap, Bool.or_eq_true, beq_iff_eq] at hc
  rcases hc with ((rfl | rfl) | rfl) | rfl <;> rfl

theorem begin_mark (hc : mark? c = some token) :
    Scan.begin found c = some (.between, token :: found) := by
  unfold mark? at hc
  split at hc <;> cases hc <;> rfl

/-! ### Every text of the grammar is cut into its tokens -/

theorem next_code {units : List Nat} {digits value : Nat} :
    Scan.next (.code units digits value, found) c = (hexDigit? c).map fun d =>
      if digits = 3 then (.quoted ((16 * value + d) :: units), found)
      else (.code units (digits + 1) (16 * value + d), found) := rfl

theorem tokensFrom_code {digits : List Char} {count value unit : Nat}
    (hlength : count + digits.length = 4) (hne : digits ≠ [])
    (hunit : hexNumber? value digits = some unit) :
    tokensFrom (.code units count value, found) (digits ++ rest) =
      tokensFrom (.quoted (unit :: units), found) rest := by
  induction digits generalizing count value with
  | nil => exact absurd rfl hne
  | cons c digits ih =>
    rw [hexNumber?, List.foldlM_cons] at hunit
    obtain ⟨value', hvalue, hunit⟩ := Option.bind_eq_some_iff.1 hunit
    obtain ⟨d, hd, rfl⟩ := Option.map_eq_some_iff.1 hvalue
    rw [List.cons_append, tokensFrom_cons, next_code, hd, Option.map_some, Option.bind_some]
    cases digits with
    | nil =>
      obtain rfl : count = 3 := by simpa using hlength
      obtain rfl := Option.some.inj hunit
      rfl
    | cons c' digits =>
      rw [List.length_cons, List.length_cons] at hlength
      rw [if_neg (by omega)]
      refine ih ?_ (List.cons_ne_nil _ _) hunit
      rw [List.length_cons]
      omega

theorem Spelled.tokensFrom {spelled : List Nat} (h : Spelled body spelled) :
    tokensFrom (.quoted units, found) (body ++ rest) =
      tokensFrom (.quoted (spelled.reverse ++ units), found) rest := by
  induction h generalizing units with
  | nil => rfl
  | plain hquote hback hcontrol _ ih =>
    rw [List.cons_append, tokensFrom_cons, Scan.next, if_neg hquote, if_neg hback,
      if_neg (Nat.not_lt.2 hcontrol), Option.bind_some, ih, List.reverse_cons, List.append_assoc]
    rfl
  | @escape c e _ _ he _ ih =>
    have hu : c ≠ 'u' := by
      rintro rfl
      cases he
    rw [List.cons_append, List.cons_append, tokensFrom_cons]
    change (Json.tokensFrom (.escape units, found) _) = _
    rw [tokensFrom_cons, Scan.next, if_neg hu, he, Option.map_some, Option.bind_some, ih,
      List.reverse_cons, List.append_assoc]
    rfl
  | @code digits unit _ _ hlength hunit _ ih =>
    have hne : digits ≠ [] := by
      rintro rfl
      cases hlength
    rw [List.cons_append, List.cons_append, List.append_assoc, tokensFrom_cons]
    change (Json.tokensFrom (.escape units, found) ('u' :: _)) = _
    rw [tokensFrom_cons]
    change (Json.tokensFrom (.code units 0 0, found) _) = _
    rw [tokensFrom_code (by rw [hlength]) hne hunit, ih, List.reverse_cons, List.append_assoc]
    rfl

theorem Lexed.tokensFrom (h : Lexed text toks) :
    tokensFrom (.between, found) text = some (found.reverse ++ toks) := by
  induction h generalizing found with
  | nil => simp [Json.tokensFrom]
  | gap hc _ ih =>
    rw [tokensFrom_cons, Scan.next, begin_gap hc, Option.bind_some, ih]
  | mark hc _ ih =>
    rw [tokensFrom_cons, Scan.next, begin_mark hc, Option.bind_some, ih, List.reverse_cons,
      List.append_assoc]
    rfl
  | @bare piece rest token _ hpiece hbare hstops _ ih =>
    cases piece with
    | nil => cases hpiece
    | cons c piece =>
      have hc : Scan.begin found c = some (.bare [c], found) :=
        begin_bare (hbare c (List.mem_cons_self ..))
      have htoken : bare? (piece.reverse ++ [c]).reverse = some token := by
        rw [List.reverse_append, List.reverse_reverse]
        exact hpiece
      rw [List.cons_append, tokensFrom_cons, Scan.next, hc, Option.bind_some,
        tokensFrom_bare _ fun x hx => hbare x (List.mem_cons_of_mem _ hx),
        tokensFrom_bare_stops hstops htoken, ih, List.reverse_cons, List.append_assoc]
      rfl
  | @string body units _ _ hbody _ ih =>
    rw [tokensFrom_cons]
    change (Json.tokensFrom (.quoted [], found) _) = _
    rw [hbody.tokensFrom, tokensFrom_cons]
    change (Json.tokensFrom (.between, stringToken _ :: found) _) = _
    rw [ih, List.reverse_cons, List.append_assoc, List.append_nil, stringToken,
      List.reverse_reverse]
    rfl

/-! ### Nothing else is cut into tokens -/

def Continues : Scan → List Char → List Token → Prop
  | .between, text, toks => Lexed text toks
  | .bare taken, text, toks => ∃ piece rest token toks', text = piece ++ rest ∧
      (∀ c ∈ piece, isBare c) ∧ Stops rest ∧ bare? (taken.reverse ++ piece) = some token ∧
      Lexed rest toks' ∧ toks = token :: toks'
  | .quoted units, text, toks => Closes units [] text toks
  | .escape units, text, toks => Closes units ['\\'] text toks
  | .code units count value, text, toks => ∃ digits rest unit, text = digits ++ rest ∧
      digits ≠ [] ∧ count + digits.length = 4 ∧ hexNumber? value digits = some unit ∧
      Closes (unit :: units) [] rest toks
where
  Closes (units : List Nat) (taken text : List Char) (toks : List Token) : Prop :=
    ∃ body spelled rest toks', text = body ++ '"' :: rest ∧ Spelled (taken ++ body) spelled ∧
      Lexed rest toks' ∧
      toks = .string ((characters? (units.reverse ++ spelled)).map String.ofList) :: toks'

variable {scan scan' : Scan} {found' : List Token}

theorem continues_begin (h : Scan.begin found c = some (scan, found'))
    (hscan : Continues scan text toks) :
    ∃ toks', found'.reverse ++ toks = found.reverse ++ toks' ∧ Lexed (c :: text) toks' := by
  rcases begin_cases h with ⟨hc, h⟩ | ⟨token, hc, h⟩ | ⟨rfl, h⟩ | ⟨hc, h⟩
  · cases h
    exact ⟨toks, rfl, hscan.gap hc⟩
  · cases h
    refine ⟨token :: toks, ?_, hscan.mark hc⟩
    rw [List.reverse_cons, List.append_assoc]
    rfl
  · cases h
    obtain ⟨body, spelled, rest, toks', rfl, hbody, hrest, rfl⟩ := hscan
    exact ⟨_, rfl, hrest.string hbody⟩
  · cases h
    obtain ⟨piece, rest', token, toks', rfl, hbare, hstops, hpiece, hrest, rfl⟩ := hscan
    have hbare' : ∀ x ∈ c :: piece, isBare x := List.forall_mem_cons.2 ⟨hc, hbare⟩
    have hlexed : Lexed ((c :: piece) ++ rest') (token :: toks') :=
      hrest.bare hpiece hbare' hstops
    exact ⟨_, rfl, hlexed⟩

theorem continues_bare {taken : List Char}
    (h : Scan.next (.bare taken, found) c = some (scan, found'))
    (hscan : Continues scan text toks) : ∃ toks', found'.reverse ++ toks = found.reverse ++ toks' ∧
      Continues (.bare taken) (c :: text) toks' := by
  rw [Scan.next] at h
  split at h
  · next hc =>
    cases h
    obtain ⟨piece, rest, token, toks', rfl, hbare, hstops, hpiece, hrest, rfl⟩ := hscan
    refine ⟨_, rfl, c :: piece, rest, token, toks', rfl, ?_, hstops, ?_, hrest, rfl⟩
    · exact List.forall_mem_cons.2 ⟨hc, hbare⟩
    · rwa [List.reverse_cons, List.append_assoc] at hpiece
  · next hc =>
    obtain ⟨token, htoken, hbegin⟩ := Option.bind_eq_some_iff.1 h
    obtain ⟨toks', hfound, hrest⟩ := continues_begin hbegin hscan
    have hnil : ∀ x ∈ ([] : List Char), isBare x := List.forall_mem_nil _
    refine ⟨token :: toks', ?_, [], c :: text, token, toks', rfl, hnil, ?_, ?_, hrest, rfl⟩
    · rw [hfound, List.reverse_cons, List.append_assoc]
      rfl
    · exact stops_cons (Bool.eq_false_iff.2 hc)
    · rwa [List.append_nil]

theorem continues_quoted (h : Scan.next (.quoted units, found) c = some (scan, found'))
    (hscan : Continues scan text toks) : ∃ toks', found'.reverse ++ toks = found.reverse ++ toks' ∧
      Continues (.quoted units) (c :: text) toks' := by
  rw [Scan.next] at h
  split at h
  · next hc =>
    cases h
    refine ⟨_ :: toks, ?_, [], [], text, toks, by rw [hc]; rfl, .nil, hscan, rfl⟩
    rw [List.reverse_cons, List.append_assoc, stringToken, List.append_nil]
    rfl
  · next hquote =>
    split at h
    · next hc =>
      cases h
      obtain ⟨body, spelled, rest, toks', rfl, hbody, hrest, rfl⟩ := hscan
      exact ⟨_, rfl, c :: body, spelled, rest, toks', rfl, by rw [hc]; exact hbody, hrest, rfl⟩
    · next hback =>
      split at h
      · cases h
      · next hcontrol =>
        cases h
        obtain ⟨body, spelled, rest, toks', rfl, hbody, hrest, rfl⟩ := hscan
        refine ⟨_, rfl, c :: body, c.toNat :: spelled, rest, toks', rfl, ?_, hrest, ?_⟩
        · exact hbody.plain hquote hback (Nat.not_lt.1 hcontrol)
        · rw [List.reverse_cons, List.append_assoc]
          rfl

theorem continues_escape (h : Scan.next (.escape units, found) c = some (scan, found'))
    (hscan : Continues scan text toks) : ∃ toks', found'.reverse ++ toks = found.reverse ++ toks' ∧
      Continues (.escape units) (c :: text) toks' := by
  rw [Scan.next] at h
  split at h
  · next hc =>
    cases h
    obtain ⟨digits, _, unit, rfl, hne, hlength, hunit, hcloses⟩ := hscan
    obtain ⟨body, spelled, rest, toks', rfl, hbody, hrest, rfl⟩ := hcloses
    refine ⟨_, rfl, c :: (digits ++ body), unit :: spelled, rest, toks', ?_, ?_, hrest, ?_⟩
    · rw [List.cons_append, List.append_assoc]
    · rw [hc]
      exact hbody.code (by simpa using hlength) hunit
    · rw [List.reverse_cons, List.append_assoc]
      rfl
  · obtain ⟨e, he, h⟩ := Option.map_eq_some_iff.1 h
    cases h
    obtain ⟨body, spelled, rest, toks', rfl, hbody, hrest, rfl⟩ := hscan
    refine ⟨_, rfl, c :: body, e.toNat :: spelled, rest, toks', rfl, hbody.escape he, hrest, ?_⟩
    rw [List.reverse_cons, List.append_assoc]
    rfl

theorem continues_code {count value : Nat}
    (h : Scan.next (.code units count value, found) c = some (scan, found'))
    (hscan : Continues scan text toks) : ∃ toks', found'.reverse ++ toks = found.reverse ++ toks' ∧
      Continues (.code units count value) (c :: text) toks' := by
  rw [next_code] at h
  obtain ⟨d, hd, h⟩ := Option.map_eq_some_iff.1 h
  have hnumber (digits : List Char) :
      hexNumber? value (c :: digits) = hexNumber? (16 * value + d) digits := by
    rw [hexNumber?, List.foldlM_cons, hd]
    rfl
  split at h
  · next hcount =>
    cases h
    refine ⟨toks, rfl, [c], text, _, rfl, List.cons_ne_nil _ _, by rw [hcount]; rfl, ?_, hscan⟩
    rw [hnumber]
    rfl
  · cases h
    obtain ⟨digits, rest, unit, rfl, hne, hlength, hunit, hcloses⟩ := hscan
    refine ⟨_, rfl, c :: digits, rest, unit, rfl, List.cons_ne_nil _ _, ?_, ?_, hcloses⟩
    · rw [← hlength, List.length_cons]
      omega
    · rwa [hnumber]

theorem continues_next (h : Scan.next (scan, found) c = some (scan', found'))
    (hscan : Continues scan' text toks) : ∃ toks', found'.reverse ++ toks = found.reverse ++ toks' ∧
      Continues scan (c :: text) toks' := by
  cases scan with
  | between => exact continues_begin h hscan
  | bare taken => exact continues_bare h hscan
  | quoted units => exact continues_quoted h hscan
  | escape units => exact continues_escape h hscan
  | code units count value => exact continues_code h hscan

theorem continues_of_tokensFrom (h : tokensFrom (scan, found) text = some all) :
    ∃ toks, all = found.reverse ++ toks ∧ Continues scan text toks := by
  induction text generalizing scan found with
  | nil =>
    cases scan with
    | between =>
      obtain rfl := Option.some.inj h
      exact ⟨[], (List.append_nil _).symm, .nil⟩
    | bare taken =>
      obtain ⟨token, htoken, h⟩ := Option.bind_eq_some_iff.1 h
      obtain rfl := Option.some.inj h
      refine ⟨[token], List.reverse_cons, [], [], token, [], rfl, nofun, nofun, ?_, .nil, rfl⟩
      rwa [List.append_nil]
    | quoted units => cases h
    | escape units => cases h
    | code units count value => cases h
  | cons c text ih =>
    rw [tokensFrom_cons] at h
    obtain ⟨⟨scan', found'⟩, hnext, h⟩ := Option.bind_eq_some_iff.1 h
    obtain ⟨toks, rfl, hscan⟩ := ih h
    exact continues_next hnext hscan

theorem tokens?_eq_some_iff : tokens? text = some toks ↔ Lexed text toks := by
  constructor
  · intro h
    obtain ⟨_, rfl, hlexed⟩ := continues_of_tokensFrom h
    exact hlexed
  · exact fun h => h.tokensFrom

end TickMachine.Json
