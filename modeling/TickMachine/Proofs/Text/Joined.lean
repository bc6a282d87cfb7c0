import Mathlib.Data.List.TakeWhile
import TickMachine.Text.Blank

/-! Texts that are joined from pieces and cut apart again. What is put between the pieces must not
occur in them, and a piece must not be empty where empty pieces are dropped. -/

namespace TickMachine.Text

variable {p : Char → Bool} {text rest : List Char} {texts : List (List Char)} {c : Char}

theorem splitOn_append_cons (h : ∀ x ∈ text, p x = false) (hc : p c = true) :
    splitOn p (text ++ c :: rest) = text :: splitOn p rest := by
  induction text with
  | nil => rw [List.nil_append, splitOn, if_pos hc]
  | cons x text ih =>
    have hx : p x = false := h x (List.mem_cons_self ..)
    have htext := ih fun y hy => h y (List.mem_cons_of_mem _ hy)
    rw [List.cons_append, splitOn, hx, htext]
    rfl

theorem append_cons_inj {front front' back back' : List Char} (h : c ∉ front) (h' : c ∉ front')
    (heq : front ++ c :: back = front' ++ c :: back') : front = front' ∧ back = back' := by
  have hnone {text : List Char} (h : c ∉ text) : ∀ x ∈ text, (x == c) = false := by
    intro x hx
    exact beq_false_of_ne fun he => h (he ▸ hx)
  have hpieces := congrArg (splitOn (· == c)) heq
  rw [splitOn_append_cons (hnone h) (beq_self_eq_true c),
    splitOn_append_cons (hnone h') (beq_self_eq_true c)] at hpieces
  obtain rfl := (List.cons.inj hpieces).1
  exact ⟨rfl, (List.cons.inj (List.append_cancel_left heq)).2⟩

theorem splitOn_of_forall_not (h : ∀ x ∈ text, p x = false) : splitOn p text = [text] := by
  induction text with
  | nil => rfl
  | cons x text ih =>
    have hx : p x = false := h x (List.mem_cons_self ..)
    have htext := ih fun y hy => h y (List.mem_cons_of_mem _ hy)
    rw [splitOn, hx, htext]
    rfl

theorem splitOn_intercalate (hc : p c = true) (hne : texts ≠ [])
    (h : ∀ text ∈ texts, ∀ x ∈ text, p x = false) : splitOn p ([c].intercalate texts) = texts := by
  induction texts with
  | nil => exact absurd rfl hne
  | cons text texts ih =>
    have htext := h text (List.mem_cons_self ..)
    cases texts with
    | nil =>
      rw [List.intercalate_singleton]
      exact splitOn_of_forall_not htext
    | cons text' texts =>
      have hrest := ih (List.cons_ne_nil _ _) fun t ht => h t (List.mem_cons_of_mem _ ht)
      rw [List.intercalate_cons_cons, List.append_assoc, List.singleton_append,
        splitOn_append_cons htext hc, hrest]

theorem forall_mem_splitOn (text : List Char) :
    ∀ piece ∈ splitOn p text, ∀ c ∈ piece, p c = false := by
  induction text with
  | nil => exact List.forall_mem_singleton.2 nofun
  | cons x text ih =>
    rw [splitOn]
    split
    · exact List.forall_mem_cons.2 ⟨nofun, ih⟩
    · next hx =>
      have hx : p x = false := Bool.eq_false_iff.2 hx
      split
      · exact List.forall_mem_singleton.2 (List.forall_mem_singleton.2 hx)
      · next first pieces hpieces =>
        rw [hpieces, List.forall_mem_cons] at ih
        exact List.forall_mem_cons.2 ⟨List.forall_mem_cons.2 ⟨hx, ih.1⟩, ih.2⟩

theorem getLast?_splitOn (h : text.getLast? = some c) (hc : p c = false) :
    ∃ piece, (splitOn p text).getLast? = some piece ∧ piece.getLast? = some c := by
  induction text with
  | nil => cases h
  | cons x text ih =>
    cases text with
    | nil =>
      obtain rfl : x = c := by simpa using h
      exact ⟨[x], by simp [splitOn, hc], rfl⟩
    | cons y text =>
      obtain ⟨piece, hpiece, hlast⟩ := ih (by rwa [List.getLast?_cons_cons] at h)
      rw [splitOn]
      split
      · refine ⟨piece, ?_, hlast⟩
        rw [List.getLast?_cons, hpiece]
        rfl
      · split
        · next hnil => exact absurd hnil (splitOn_ne_nil p _)
        · next first pieces hpieces =>
          rw [hpieces] at hpiece
          cases pieces with
          | nil =>
            obtain rfl : first = piece := by simpa using hpiece
            exact ⟨x :: first, rfl, by rw [List.getLast?_cons, hlast]; rfl⟩
          | cons second pieces => exact ⟨piece, by simpa using hpiece, hlast⟩

theorem lines_intercalate (hne : texts ≠ []) (h : ∀ text ∈ texts, '\n' ∉ text) :
    lines (['\n'].intercalate texts) = texts := by
  apply splitOn_intercalate rfl hne
  intro text ht x hx
  have hx : x ≠ '\n' := fun he => h text ht (he ▸ hx)
  exact beq_false_of_ne hx

theorem flatMap_eq_intercalate :
    texts.flatMap (fun text => text ++ [c]) = [c].intercalate (texts ++ [[]]) := by
  induction texts with
  | nil => rfl
  | cons text texts ih =>
    have hne : texts ++ [[]] ≠ [] := by simp
    rw [List.flatMap_cons, ih, List.cons_append, List.intercalate_cons_of_ne_nil hne]

/-- A word is not empty and has no blank in it. -/
def IsWord (word : List Char) : Prop := word ≠ [] ∧ ∀ c ∈ word, isBlank c = false

theorem words_intercalate (h : ∀ word ∈ texts, IsWord word) :
    words ([' '].intercalate texts) = texts := by
  cases texts with
  | nil => rfl
  | cons word texts =>
    have hsplit := splitOn_intercalate (p := isBlank) (c := ' ') rfl (List.cons_ne_nil word texts)
      fun w hw => (h w hw).2
    rw [words, hsplit]
    apply List.filter_eq_self.2
    intro w hw
    simpa using (h w hw).1

theorem mem_intercalate {separator : List Char} (h : c ∈ separator.intercalate texts) :
    c ∈ separator ∨ ∃ word ∈ texts, c ∈ word := by
  induction texts with
  | nil => cases h
  | cons word texts ih =>
    cases texts with
    | nil =>
      rw [List.intercalate_singleton] at h
      exact .inr ⟨word, List.mem_cons_self .., h⟩
    | cons word' texts =>
      rw [List.intercalate_cons_cons, List.append_assoc, List.mem_append] at h
      rcases h with h | h
      · exact .inr ⟨word, List.mem_cons_self .., h⟩
      rcases List.mem_append.1 h with h | h
      · exact .inl h
      rcases ih h with h | ⟨w, hw, hc⟩
      · exact .inl h
      · exact .inr ⟨w, List.mem_cons_of_mem _ hw, hc⟩

theorem intercalate_ne_nil (hne : texts ≠ []) (h : ∀ word ∈ texts, word ≠ []) :
    [' '].intercalate texts ≠ [] := by
  cases texts with
  | nil => exact absurd rfl hne
  | cons word texts =>
    have hword := h word (List.mem_cons_self ..)
    cases texts with
    | nil => rwa [List.intercalate_singleton]
    | cons word' texts => simp [List.intercalate_cons_cons]

theorem head?_intercalate {word : List Char} (hne : word ≠ []) :
    ([' '].intercalate (word :: texts)).head? = word.head? := by
  cases word with
  | nil => exact absurd rfl hne
  | cons x word => rw [List.intercalate_cons_cons_left]; rfl

theorem mem_of_getLast?_intercalate (h : ∀ word ∈ texts, word ≠ [])
    (hc : ([' '].intercalate texts).getLast? = some c) : ∃ word ∈ texts, c ∈ word := by
  induction texts with
  | nil => cases hc
  | cons word texts ih =>
    cases texts with
    | nil =>
      rw [List.intercalate_singleton] at hc
      exact ⟨word, List.mem_cons_self .., List.mem_of_getLast? hc⟩
    | cons word' texts =>
      have htail : ∀ w ∈ word' :: texts, w ≠ [] := fun w hw => h w (List.mem_cons_of_mem _ hw)
      have hrest := intercalate_ne_nil (List.cons_ne_nil _ _) htail
      have hlast := List.getLast?_eq_some_getLast hrest
      rw [List.intercalate_cons_cons, List.getLast?_append, hlast, Option.some_or, ← hlast] at hc
      rcases ih htail hc with ⟨w, hw, hc⟩
      exact ⟨w, List.mem_cons_of_mem _ hw, hc⟩

theorem dropWhile_eq_self (h : ∀ c, text.head? = some c → p c = false) :
    text.dropWhile p = text := by
  cases text with
  | nil => rfl
  | cons c text => exact List.dropWhile_cons_of_neg (by simp [h c rfl])

theorem trimEndWhile_eq_self (h : ∀ c, text.getLast? = some c → p c = false) :
    trimEndWhile p text = text := by
  rw [trimEndWhile, dropWhile_eq_self, List.reverse_reverse]
  intro c hc
  exact h c (by rwa [List.head?_reverse] at hc)

theorem trimWhile_eq_self (hfirst : ∀ c, text.head? = some c → p c = false)
    (hlast : ∀ c, text.getLast? = some c → p c = false) : trimWhile p text = text := by
  rw [trimWhile, trimStartWhile, dropWhile_eq_self hfirst, trimEndWhile_eq_self hlast]

theorem dropWhile_replicate_append {n : Nat} (h : text.head? ≠ some c) :
    (List.replicate n c ++ text).dropWhile (· == c) = text := by
  have htext : text.dropWhile (· == c) = text := by
    apply dropWhile_eq_self
    intro x hx
    exact beq_false_of_ne fun hxc => h (hxc ▸ hx)
  rw [List.dropWhile_append_of_pos, htext]
  intro x hx
  exact beq_iff_eq.2 (List.eq_of_mem_replicate hx)

theorem exists_replicate_append_dropWhile (c : Char) (text : List Char) :
    ∃ n, text = List.replicate n c ++ text.dropWhile (· == c) := by
  have hsame : ∀ x ∈ text.takeWhile (· == c), x = c := by
    intro x hx
    have hall := List.all_takeWhile (l := text) (p := (· == c))
    exact eq_of_beq (List.all_eq_true.1 hall x hx)
  refine ⟨(text.takeWhile (· == c)).length, ?_⟩
  rw [← List.eq_replicate_of_mem hsame]
  exact List.takeWhile_append_dropWhile.symm

theorem head?_dropWhile_ne (c : Char) (text : List Char) :
    (text.dropWhile (· == c)).head? ≠ some c := by
  intro h
  have hnot := List.head?_dropWhile_not (· == c) text
  rw [h] at hnot
  simp at hnot

theorem trimWhile_eq_iff : trimWhile (· == c) text = rest ↔
    ∃ n m, text = List.replicate n c ++ rest ++ List.replicate m c ∧
      rest.head? ≠ some c ∧ rest.getLast? ≠ some c := by
  rw [trimWhile, trimStartWhile, trimEndWhile]
  constructor
  · rintro rfl
    obtain ⟨n, hn⟩ := exists_replicate_append_dropWhile c text
    obtain ⟨m, hm⟩ := exists_replicate_append_dropWhile c (text.dropWhile (· == c)).reverse
    have hhead := head?_dropWhile_ne c text
    have hlast := head?_dropWhile_ne c (text.dropWhile (· == c)).reverse
    generalize text.dropWhile (· == c) = start at hn hm hhead hlast ⊢
    generalize start.reverse.dropWhile (· == c) = kept at hm hlast ⊢
    have hstart : start = kept.reverse ++ List.replicate m c := by
      rw [← List.reverse_reverse start, hm, List.reverse_append, List.reverse_replicate]
    refine ⟨n, m, ?_, fun h => hhead ?_, ?_⟩
    · rw [List.append_assoc, ← hstart]
      exact hn
    · rw [hstart, List.head?_append, h]
      rfl
    · rwa [List.getLast?_reverse]
  · rintro ⟨n, m, rfl, hhead, hlast⟩
    by_cases hnil : rest = []
    · have hall : List.replicate n c ++ rest ++ List.replicate m c =
          List.replicate (n + m) c ++ [] := by
        rw [hnil, List.append_nil, List.append_nil, List.replicate_append_replicate]
      rw [hall, dropWhile_replicate_append (by simp), hnil]
      rfl
    · have hstart : (rest ++ List.replicate m c).head? ≠ some c := by
        rwa [List.head?_append, Option.or_of_isSome (by simpa using hnil)]
      have hend : rest.reverse.head? ≠ some c := by rwa [List.head?_reverse]
      rw [List.append_assoc, dropWhile_replicate_append hstart, List.reverse_append,
        List.reverse_replicate, dropWhile_replicate_append hend, List.reverse_reverse]

end TickMachine.Text
