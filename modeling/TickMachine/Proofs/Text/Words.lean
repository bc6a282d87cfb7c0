import TickMachine.Proofs.Text.Joined

/-! The words of a text. A blank separates the words on its two sides, and a text without blanks at
its ends begins as its first word does and ends as its last. A blank is no letter, and so the same
in upper and in lower case. -/

namespace TickMachine.Text

variable {p : Char → Bool} {text word front back gap : List Char} {c : Char}

/-! ### Texts without their ends -/

theorem head?_dropWhile_eq_false (h : (text.dropWhile p).head? = some c) : p c = false := by
  have hnot := List.head?_dropWhile_not p text
  rw [h] at hnot
  simpa using hnot

theorem head?_trimEndWhile (h : (trimEndWhile p text).head? = some c) : text.head? = some c := by
  obtain ⟨kept, hkept⟩ : trimEndWhile p text <+: text := by
    have hsuffix := (List.dropWhile_suffix (l := text.reverse) p)
    rwa [← List.reverse_prefix, List.reverse_reverse] at hsuffix
  rw [← hkept, List.head?_append, h, Option.some_or]

theorem getLast?_trimEndWhile (h : (trimEndWhile p text).getLast? = some c) : p c = false := by
  rw [trimEndWhile, List.getLast?_reverse] at h
  exact head?_dropWhile_eq_false h

theorem head?_trimWhile (h : (trimWhile p text).head? = some c) : p c = false :=
  head?_dropWhile_eq_false (head?_trimEndWhile h)

theorem getLast?_trimWhile (h : (trimWhile p text).getLast? = some c) : p c = false :=
  getLast?_trimEndWhile h

theorem exists_trimEndWhile (p : Char → Bool) (text : List Char) :
    ∃ back, text = trimEndWhile p text ++ back ∧ ∀ c ∈ back, p c := by
  refine ⟨(text.reverse.takeWhile p).reverse, ?_, fun c hc => ?_⟩
  · rw [trimEndWhile, ← List.reverse_append, List.takeWhile_append_dropWhile, List.reverse_reverse]
  · exact List.all_eq_true.1 List.all_takeWhile c (List.mem_reverse.1 hc)

theorem exists_trimWhile (p : Char → Bool) (text : List Char) :
    ∃ front back, text = front ++ trimWhile p text ++ back ∧ (∀ c ∈ front, p c) ∧
      ∀ c ∈ back, p c := by
  obtain ⟨back, hback, hall⟩ := exists_trimEndWhile p (text.dropWhile p)
  refine ⟨text.takeWhile p, back, ?_, List.all_eq_true.1 List.all_takeWhile, hall⟩
  rw [List.append_assoc, trimWhile, trimStartWhile, ← hback, List.takeWhile_append_dropWhile]

theorem trimEndWhile_append_of_forall (h : ∀ c ∈ back, p c) :
    trimEndWhile p (text ++ back) = trimEndWhile p text := by
  rw [trimEndWhile, List.reverse_append, List.dropWhile_append_of_pos]
  · rfl
  · exact fun c hc => h c (List.mem_reverse.1 hc)

theorem trimWhile_append_left (h : ∀ c ∈ front, p c) :
    trimWhile p (front ++ text) = trimWhile p text := by
  rw [trimWhile, trimStartWhile, List.dropWhile_append_of_pos h]
  rfl

theorem trimWhile_append_right (h : ∀ c ∈ back, p c) :
    trimWhile p (text ++ back) = trimWhile p text := by
  rw [trimWhile, trimWhile, trimStartWhile, trimStartWhile, List.dropWhile_append]
  split
  · next hall =>
    rw [List.isEmpty_iff.1 hall, List.dropWhile_eq_nil_iff.2 h]
  · exact trimEndWhile_append_of_forall h

theorem trimEndWhile_append (h : ∀ c, text.getLast? = some c → p c = false) :
    trimEndWhile p (text ++ back) = text ++ trimEndWhile p back := by
  obtain ⟨rest, hrest, hall⟩ := exists_trimEndWhile p back
  generalize hkept : trimEndWhile p back = kept at hrest ⊢
  rw [hrest, ← List.append_assoc, trimEndWhile_append_of_forall hall]
  apply trimEndWhile_eq_self
  intro c hc
  rw [List.getLast?_append] at hc
  cases hlast : kept.getLast? with
  | none =>
    rw [hlast, Option.none_or] at hc
    exact h c hc
  | some d =>
    rw [hlast, Option.some_or] at hc
    obtain rfl := Option.some.inj hc
    exact getLast?_trimEndWhile (hkept ▸ hlast)

/-! ### Pieces -/

theorem splitOn_append_separator (hc : p c) (front back : List Char) :
    splitOn p (front ++ c :: back) = splitOn p front ++ splitOn p back := by
  induction front with
  | nil =>
    rw [List.nil_append, splitOn, splitOn, if_pos hc]
    rfl
  | cons x front ih =>
    rw [List.cons_append, splitOn, splitOn, ih]
    split
    · rfl
    · cases hpieces : splitOn p front with
      | nil => exact absurd hpieces (splitOn_ne_nil p front)
      | cons piece pieces => rfl

theorem mem_of_mem_splitOn {piece : List Char} (h : piece ∈ splitOn p text) (hc : c ∈ piece) :
    c ∈ text := by
  induction text generalizing piece with
  | nil =>
    rw [splitOn, List.mem_singleton] at h
    rwa [h] at hc
  | cons x text ih =>
    rw [splitOn] at h
    split at h
    · obtain rfl | h := List.mem_cons.1 h
      · cases hc
      · exact List.mem_cons_of_mem x (ih h hc)
    · split at h
      · next hnil => exact absurd hnil (splitOn_ne_nil _ text)
      · next first pieces hpieces =>
        rw [hpieces, List.forall_mem_cons] at ih
        obtain rfl | h := List.mem_cons.1 h
        · obtain rfl | hc := List.mem_cons.1 hc
          · exact List.mem_cons_self ..
          · exact List.mem_cons_of_mem x (ih.1 hc)
        · exact List.mem_cons_of_mem x (ih.2 _ h hc)

/-! ### Words -/

theorem words_append_blank (hc : isBlank c) (front back : List Char) :
    words (front ++ c :: back) = words front ++ words back := by
  rw [words, splitOn_append_separator hc, List.filter_append]
  rfl

theorem words_blanks_append (h : ∀ c ∈ gap, isBlank c) (text : List Char) :
    words (gap ++ text) = words text := by
  induction gap with
  | nil => rfl
  | cons c gap ih =>
    obtain ⟨hc, hgap⟩ := List.forall_mem_cons.1 h
    exact (words_append_blank hc [] (gap ++ text)).trans (ih hgap)

theorem words_append_gap (hne : gap ≠ []) (h : ∀ c ∈ gap, isBlank c) (front back : List Char) :
    words (front ++ gap ++ back) = words front ++ words back := by
  obtain ⟨c, gap, rfl⟩ := List.exists_cons_of_ne_nil hne
  obtain ⟨hc, hgap⟩ := List.forall_mem_cons.1 h
  rw [List.append_assoc, List.cons_append, words_append_blank hc, words_blanks_append hgap]

theorem words_append_blanks (h : ∀ c ∈ gap, isBlank c) (text : List Char) :
    words (text ++ gap) = words text := by
  by_cases hne : gap = []
  · rw [hne, List.append_nil]
  · rw [← List.append_nil (text ++ gap), words_append_gap hne h]
    exact List.append_nil _

theorem words_trim (text : List Char) : words (trim text) = words text := by
  obtain ⟨front, back, htext, hfront, hback⟩ := exists_trimWhile isBlank text
  have hwords := congrArg words htext
  rw [words_append_blanks hback, words_blanks_append hfront] at hwords
  exact hwords.symm

theorem head?_word_append (h : IsWord word) (back : List Char) :
    ∀ c, (word ++ back).head? = some c → isBlank c = false := by
  intro c hc
  obtain ⟨x, rest, rfl⟩ := List.exists_cons_of_ne_nil h.1
  obtain rfl : x = c := Option.some.inj hc
  exact h.2 x (List.mem_cons_self ..)

theorem trim_word_append (h : IsWord word) (back : List Char) :
    trim (word ++ back) = word ++ trimEndWhile isBlank back := by
  rw [trim, trimWhile, trimStartWhile, dropWhile_eq_self (head?_word_append h back)]
  exact trimEndWhile_append fun c hc => h.2 c (List.mem_of_getLast? hc)

theorem words_word_append (h : IsWord word) (hback : ∀ c, back.head? = some c → isBlank c) :
    words (word ++ back) = word :: words back := by
  have hword : words word = [word] := by
    rw [words, splitOn_of_forall_not h.2]
    simpa using h.1
  cases back with
  | nil =>
    rw [List.append_nil, hword]
    rfl
  | cons c back =>
    have hc := hback c rfl
    rw [words_append_blank hc, hword, show words (c :: back) = words back from
      words_append_blank hc [] back]
    rfl

theorem isWord_of_mem_words (h : word ∈ words text) : IsWord word := by
  obtain ⟨hmem, hne⟩ := List.mem_filter.1 h
  exact ⟨by simpa using hne, forall_mem_splitOn text word hmem⟩

theorem words_eq_cons (hne : text ≠ []) (h : ∀ c, text.head? = some c → isBlank c = false) :
    words text = text.takeWhile (!isBlank ·) :: words (text.dropWhile (!isBlank ·)) := by
  obtain ⟨c, rest, rfl⟩ := List.exists_cons_of_ne_nil hne
  have hword : IsWord ((c :: rest).takeWhile (!isBlank ·)) := by
    refine ⟨?_, fun x hx => ?_⟩
    · rw [List.takeWhile_cons_of_pos (by simp [h c rfl])]
      exact List.cons_ne_nil _ _
    · have hall := List.all_eq_true.1 List.all_takeWhile x hx
      simpa using hall
  have hback (x : Char) (hx : ((c :: rest).dropWhile (!isBlank ·)).head? = some x) :
      isBlank x := by
    have hnot := head?_dropWhile_eq_false hx
    simpa using hnot
  have hsplit := words_word_append hword hback
  rwa [List.takeWhile_append_dropWhile] at hsplit

theorem getLast?_words (h : text.getLast? = some c) (hc : isBlank c = false) :
    ∃ word, (words text).getLast? = some word ∧ word.getLast? = some c := by
  obtain ⟨piece, hpiece, hlast⟩ := getLast?_splitOn h hc
  obtain ⟨pieces, hpieces⟩ := List.getLast?_eq_some_iff.1 hpiece
  have hne : piece ≠ [] := by
    rintro rfl
    cases hlast
  have hkeep : [piece].filter (!·.isEmpty) = [piece] := by simpa using hne
  refine ⟨piece, ?_, hlast⟩
  rw [words, hpieces, List.filter_append, hkeep, List.getLast?_concat]

theorem exists_of_words_eq_cons {texts : List (List Char)} (h : words text = word :: texts) :
    ∃ front back, text = front ++ (word ++ back) ∧ (∀ c ∈ front, isBlank c) ∧ IsWord word ∧
      (∀ c, back.head? = some c → isBlank c) ∧ words back = texts := by
  have hsplit : text.takeWhile isBlank ++ text.dropWhile isBlank = text :=
    List.takeWhile_append_dropWhile
  have hfront : ∀ c ∈ text.takeWhile isBlank, isBlank c :=
    List.all_eq_true.1 List.all_takeWhile
  rw [← hsplit, words_blanks_append hfront] at h
  have hne : text.dropWhile isBlank ≠ [] := by
    intro hnil
    rw [hnil] at h
    cases h
  have hword : word ∈ words (text.dropWhile isBlank) := h ▸ List.mem_cons_self ..
  rw [words_eq_cons hne fun c => head?_dropWhile_eq_false] at h
  obtain ⟨rfl, htexts⟩ := List.cons.inj h
  refine ⟨_, _, ?_, hfront, isWord_of_mem_words hword, fun c hc => ?_, htexts⟩
  · rw [List.takeWhile_append_dropWhile, hsplit]
  · simpa using head?_dropWhile_eq_false hc

theorem splitAtBlank?_word (hword : IsWord word) (hback : ∀ c, back.head? = some c → isBlank c) :
    splitAtBlank? (word ++ back) = back.tail?.map fun rest => (word, rest) := by
  have hword : ∀ c ∈ word, (!isBlank c) = true := fun c hc => by rw [hword.2 c hc]; rfl
  rw [splitAtBlank?, List.dropWhile_append_of_pos hword, List.takeWhile_append_of_pos hword]
  cases back with
  | nil => rfl
  | cons c rest =>
    have hc : (!isBlank c) = false := by rw [hback c rfl]; rfl
    rw [List.dropWhile_cons_of_neg (by simp [hc]), List.takeWhile_cons_of_neg (by simp [hc]),
      List.append_nil]
    rfl

theorem splitAtBlank?_eq_some (h : splitAtBlank? text = some (word, back)) :
    ∃ c, text = word ++ c :: back ∧ (∀ c ∈ word, isBlank c = false) ∧ isBlank c := by
  rw [splitAtBlank?] at h
  split at h
  · cases h
  · next c rest hrest =>
    obtain ⟨rfl, rfl⟩ := Prod.mk.inj (Option.some.inj h)
    have hc : (!isBlank c) = false := head?_dropWhile_eq_false (congrArg List.head? hrest)
    refine ⟨c, ?_, fun x hx => ?_, by simpa using hc⟩
    · rw [← hrest, List.takeWhile_append_dropWhile]
    · simpa using List.all_eq_true.1 List.all_takeWhile x hx

/-! ### Letters -/

theorem isUpper_iff : c.isUpper ↔ 65 ≤ c.toNat ∧ c.toNat ≤ 90 :=
  decide_eq_true_iff.trans (and_congr UInt32.le_iff_toNat_le UInt32.le_iff_toNat_le)

theorem isLower_iff : c.isLower ↔ 97 ≤ c.toNat ∧ c.toNat ≤ 122 :=
  Bool.and_eq_true_iff.trans <| and_congr (decide_eq_true_iff.trans UInt32.le_iff_toNat_le)
    (decide_eq_true_iff.trans UInt32.le_iff_toNat_le)

theorem isAlpha_iff : c.isAlpha ↔ c.isUpper ∨ c.isLower := Bool.or_eq_true_iff

theorem isAlpha_eq_false_iff : c.isAlpha = false ↔
    ¬(65 ≤ c.toNat ∧ c.toNat ≤ 90) ∧ ¬(97 ≤ c.toNat ∧ c.toNat ≤ 122) := by
  rw [← isUpper_iff, ← isLower_iff, ← not_or, ← isAlpha_iff, Bool.not_eq_true]

theorem toLower_of_not_isUpper (h : ¬c.isUpper) : c.toLower = c :=
  dif_neg fun hrange => h (decide_eq_true hrange)

theorem toNat_toLower (h : c.isUpper) : c.toLower.toNat = c.toNat + 32 := by
  have hrange : c.val ≥ 'A'.val ∧ c.val ≤ 'Z'.val := of_decide_eq_true h
  have hright : c.toNat ≤ 90 := hrange.2
  have hval : c.toLower.val = c.val + ('a'.val - 'A'.val) := congrArg Char.val (dif_pos hrange)
  change c.toLower.val.toNat = _
  rw [hval, UInt32.toNat_add]
  change (c.toNat + 32) % _ = _
  omega

theorem toLower_toLower (c : Char) : c.toLower.toLower = c.toLower := by
  by_cases h : c.isUpper
  · have hlower := toNat_toLower h
    apply toLower_of_not_isUpper
    rw [isUpper_iff] at h ⊢
    omega
  · rw [toLower_of_not_isUpper h, toLower_of_not_isUpper h]

theorem eq_of_toLower_eq {d : Char} (hd : d.isAlpha = false) (h : c.toLower = d.toLower) :
    c = d := by
  rw [isAlpha_eq_false_iff, ← isUpper_iff] at hd
  rw [toLower_of_not_isUpper hd.1] at h
  by_cases hc : c.isUpper
  · have hlower := toNat_toLower hc
    rw [isUpper_iff] at hc
    rw [h] at hlower
    omega
  · rwa [toLower_of_not_isUpper hc] at h

theorem isAlpha_of_isBlank (h : isBlank c) : c.isAlpha = false := by
  simp only [isBlank, Bool.or_eq_true, Bool.and_eq_true, decide_eq_true_eq, beq_iff_eq] at h
  rw [isAlpha_eq_false_iff]
  omega

end TickMachine.Text
