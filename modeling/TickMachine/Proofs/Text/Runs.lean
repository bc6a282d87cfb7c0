import TickMachine.Proofs.Text.Words

/-! Runs of characters between separators, and texts in which runs are put in the place of others
while the separators stay. What is put in must have no separators itself. -/

namespace TickMachine.Text

/-- The text with `f` applied to each run between characters that satisfy `p`, the first of which is
preceded by `run`. -/
def mapRuns (p : Char → Bool) (f : List Char → List Char) (run : List Char) :
    List Char → List Char
  | [] => f run
  | c :: text => if p c then f run ++ c :: mapRuns p f [] text else mapRuns p f (run ++ [c]) text

def mapFirst (p : Char → Bool) (f g : List Char → List Char) (text : List Char) : List Char :=
  let rest := text.dropWhile p
  text.takeWhile p ++ (f (rest.takeWhile (!p ·)) ++ g (rest.dropWhile (!p ·)))

def IsTrimmed (p : Char → Bool) (text : List Char) : Prop :=
  (∀ c, text.head? = some c → p c = false) ∧ ∀ c, text.getLast? = some c → p c = false

variable {p : Char → Bool} {f g : List Char → List Char} {P : Char → Prop}
  {text run front back word : List Char} {c : Char}

/-! ### Runs -/

theorem splitOn_mapRuns (hrun : ∀ c ∈ run, p c = false)
    (h : ∀ piece ∈ splitOn p (run ++ text), ∀ c ∈ f piece, p c = false) :
    splitOn p (mapRuns p f run text) = (splitOn p (run ++ text)).map f := by
  induction text generalizing run with
  | nil =>
    rw [List.append_nil, splitOn_of_forall_not hrun, List.forall_mem_singleton] at h
    rw [mapRuns, List.append_nil, splitOn_of_forall_not hrun, splitOn_of_forall_not h]
    rfl
  | cons c text ih =>
    have hnone : ∀ c ∈ ([] : List Char), p c = false := nofun
    rw [mapRuns]
    split
    · next hc =>
      rw [splitOn_append_cons hrun hc, List.forall_mem_cons] at h
      rw [splitOn_append_cons hrun hc, splitOn_append_cons h.1 hc, ih hnone h.2]
      rfl
    · next hc =>
      have hall : ∀ x ∈ run ++ [c], p x = false :=
        List.forall_mem_append.2 ⟨hrun, List.forall_mem_singleton.2 (Bool.eq_false_iff.2 hc)⟩
      have happend : run ++ c :: text = run ++ [c] ++ text := List.append_cons ..
      rw [happend] at h ⊢
      exact ih hall h

theorem forall_mem_mapRuns (hrun : ∀ c ∈ run, p c = false)
    (h : ∀ piece ∈ splitOn p (run ++ text), ∀ c ∈ f piece, P c) (hsep : ∀ c ∈ text, P c) :
    ∀ c ∈ mapRuns p f run text, P c := by
  induction text generalizing run with
  | nil =>
    rw [List.append_nil, splitOn_of_forall_not hrun, List.forall_mem_singleton] at h
    exact h
  | cons c text ih =>
    obtain ⟨hc', htext⟩ := List.forall_mem_cons.1 hsep
    have hnone : ∀ c ∈ ([] : List Char), p c = false := nofun
    rw [mapRuns]
    split
    · next hc =>
      rw [splitOn_append_cons hrun hc, List.forall_mem_cons] at h
      exact List.forall_mem_append.2 ⟨h.1, List.forall_mem_cons.2 ⟨hc', ih hnone h.2 htext⟩⟩
    · next hc =>
      have hall : ∀ x ∈ run ++ [c], p x = false :=
        List.forall_mem_append.2 ⟨hrun, List.forall_mem_singleton.2 (Bool.eq_false_iff.2 hc)⟩
      rw [List.append_cons] at h
      exact ih hall h htext

theorem words_mapRuns (h : ∀ piece ∈ splitOn isBlank text, ∀ c ∈ f piece, isBlank c = false)
    (hnil : ∀ piece ∈ splitOn isBlank text, f piece = [] ↔ piece = []) :
    words (mapRuns isBlank f [] text) = (words text).map f := by
  have hnone : ∀ c ∈ ([] : List Char), isBlank c = false := nofun
  rw [words, splitOn_mapRuns hnone h, List.nil_append, List.filter_map, words]
  refine congrArg _ (List.filter_congr fun piece hpiece => ?_)
  have hsame := hnil piece hpiece
  simp only [Function.comp_apply]
  rw [Bool.eq_iff_iff]
  simpa using not_congr hsame

theorem head?_mapRuns (hnil : f [] = []) (h : ∀ c, text.head? = some c → p c) :
    (mapRuns p f [] text).head? = text.head? := by
  cases text with
  | nil => exact congrArg List.head? hnil
  | cons c text => rw [mapRuns, if_pos (h c rfl), hnil]; rfl

theorem mapFirst_eq (hfront : ∀ c ∈ front, p c) (hne : word ≠ []) (hword : ∀ c ∈ word, p c = false)
    (hback : ∀ c, back.head? = some c → p c) :
    mapFirst p f g (front ++ (word ++ back)) = front ++ (f word ++ g back) := by
  obtain ⟨x, rest, rfl⟩ := List.exists_cons_of_ne_nil hne
  have hx : p x = false := hword x (List.mem_cons_self ..)
  have hkeep : ∀ c ∈ x :: rest, (!p c) = true := fun c hc => by rw [hword c hc]; rfl
  have hdrop : (front ++ (x :: rest ++ back)).dropWhile p = x :: rest ++ back := by
    rw [List.dropWhile_append_of_pos hfront, List.cons_append,
      List.dropWhile_cons_of_neg (by simp [hx])]
  have htake : (front ++ (x :: rest ++ back)).takeWhile p = front := by
    rw [List.takeWhile_append_of_pos hfront, List.cons_append,
      List.takeWhile_cons_of_neg (by simp [hx]), List.append_nil]
  have hstop : back.takeWhile (!p ·) = [] ∧ back.dropWhile (!p ·) = back := by
    cases back with
    | nil => exact ⟨rfl, rfl⟩
    | cons y back =>
      have hy : (!p y) = false := by rw [hback y rfl]; rfl
      exact ⟨List.takeWhile_cons_of_neg (by simp [hy]), List.dropWhile_cons_of_neg (by simp [hy])⟩
  rw [mapFirst, hdrop, htake, List.takeWhile_append_of_pos hkeep,
    List.dropWhile_append_of_pos hkeep, hstop.1, hstop.2, List.append_nil]

/-! ### Trimmed texts -/

theorem isTrimmed_trimWhile (p : Char → Bool) (text : List Char) : IsTrimmed p (trimWhile p text) :=
  ⟨fun _ => head?_trimWhile, fun _ => getLast?_trimWhile⟩

theorem trimWhile_of_isTrimmed (hfront : ∀ c ∈ front, p c) (hback : ∀ c ∈ back, p c)
    (h : IsTrimmed p text) : trimWhile p (front ++ text ++ back) = text := by
  rw [trimWhile_append_right hback, trimWhile_append_left hfront, trimWhile_eq_self h.1 h.2]

theorem isTrimmed_of_forall (h : ∀ c ∈ text, p c = false) : IsTrimmed p text :=
  ⟨fun c hc => h c (List.mem_of_head? hc), fun c hc => h c (List.mem_of_getLast? hc)⟩

end TickMachine.Text
