import TickMachine.Assembly.Statement
import TickMachine.Proofs.Text.Words

/-! The lines of a source and the statements on them. How the lines end makes no difference to the
statements, and the first lines hold the first statements, whatever comes behind them. -/

namespace TickMachine

namespace Text

/-- The lines of a text: what stands in front of each line feed, or of a carriage return with a line
feed, and what stands behind the last one unless that is empty. -/
def endedLines (text : List Char) : List (List Char) :=
  let pieces := dropReturns (lines text)
  if pieces.getLast? = some [] then pieces.dropLast else pieces

variable {text last : List Char} {texts ended : List (List Char)}

theorem dropReturns_append_singleton (texts : List (List Char)) (last : List Char) :
    dropReturns (texts ++ [last]) = texts.map dropReturn ++ [last] := by
  induction texts with
  | nil => rfl
  | cons text texts ih =>
    have hcons : dropReturns (text :: (texts ++ [last])) =
        dropReturn text :: dropReturns (texts ++ [last]) := by
      cases texts <;> rfl
    rw [List.cons_append, hcons, ih, List.map_cons, List.cons_append]

theorem endedLines_eq (h : lines text = ended ++ [last]) :
    endedLines text = ended.map dropReturn ++ if last = [] then [] else [last] := by
  rw [endedLines, h, dropReturns_append_singleton]
  by_cases hlast : last = []
  · simp [hlast]
  · simp [hlast]

theorem exists_lines_eq (text : List Char) : ∃ ended last, lines text = ended ++ [last] :=
  ⟨_, _, (List.dropLast_concat_getLast (splitOn_ne_nil _ text)).symm⟩

theorem mem_of_mem_dropReturn {c : Char} (h : c ∈ dropReturn text) : c ∈ text := by
  rw [dropReturn] at h
  split at h
  · exact List.dropLast_subset _ h
  · exact h

theorem newline_not_mem_endedLines : ∀ line ∈ endedLines text, '\n' ∉ line := by
  obtain ⟨ended, last, hlines⟩ := exists_lines_eq text
  have hpiece : ∀ piece ∈ ended ++ [last], '\n' ∉ piece := by
    intro piece hpiece hmem
    rw [← hlines] at hpiece
    exact absurd (forall_mem_splitOn text piece hpiece _ hmem) (by decide)
  intro line hline hmem
  rw [endedLines_eq hlines, List.mem_append] at hline
  obtain hline | hline := hline
  · obtain ⟨piece, hmem', rfl⟩ := List.mem_map.1 hline
    exact hpiece piece (List.mem_append_left _ hmem') (mem_of_mem_dropReturn hmem)
  · split at hline
    · cases hline
    · exact hpiece line (List.mem_append_right _ hline) hmem

theorem endedLines_flatMap (h : ∀ text ∈ texts, '\n' ∉ text) :
    endedLines (texts.flatMap (· ++ ['\r', '\n'])) = texts := by
  have hreturn (text : List Char) : dropReturn (text ++ ['\r']) = text := by
    simp [dropReturn]
  have hpieces : ∀ piece ∈ texts.map (· ++ ['\r']) ++ [[]], '\n' ∉ piece := by
    rw [List.forall_mem_append, List.forall_mem_map]
    refine ⟨fun text htext => ?_, by simp⟩
    simpa using h text htext
  have hjoined : texts.flatMap (· ++ ['\r', '\n']) =
      ['\n'].intercalate (texts.map (· ++ ['\r']) ++ [[]]) := by
    rw [← flatMap_eq_intercalate, List.flatMap_map]
    simp
  have hlines : lines (texts.flatMap (· ++ ['\r', '\n'])) = texts.map (· ++ ['\r']) ++ [[]] := by
    rw [hjoined, lines_intercalate (by simp) hpieces]
  rw [endedLines_eq hlines, List.map_map, if_pos rfl, List.append_nil]
  exact (List.map_congr_left fun text _ => hreturn text).trans (List.map_id texts)

end Text

namespace Assembly

open Text

variable {line k : Nat} {place : Option Section} {gap : List Char} {raws raws' : List (List Char)}
  {s : Statement}

theorem takeWhile_append_comment (raw text : List Char) :
    (raw ++ ';' :: text).takeWhile (· != ';') = raw.takeWhile (· != ';') := by
  rw [List.takeWhile_append]
  split
  · next hall =>
    rw [(List.takeWhile_prefix _).eq_of_length hall]
    exact List.append_nil raw
  · rfl

theorem content_append_comment (raw text : List Char) :
    content (raw ++ ';' :: text) = content raw := by
  rw [content, takeWhile_append_comment, content]

theorem ne_semicolon_of_isBlank {c : Char} (h : isBlank c) : (c != ';') = true := by
  rw [bne_iff_ne]
  rintro rfl
  cases h

theorem content_append_blanks (h : ∀ c ∈ gap, isBlank c) (raw : List Char) :
    content (raw ++ gap) = content raw := by
  have hgap : gap.takeWhile (· != ';') = gap :=
    List.takeWhile_eq_self_iff.2 fun c hc => ne_semicolon_of_isBlank (h c hc)
  rw [content, content, List.takeWhile_append, hgap]
  split
  · next hall =>
    rw [(List.takeWhile_prefix _).eq_of_length hall]
    exact trimWhile_append_right h
  · rfl

theorem content_blanks_append (h : ∀ c ∈ gap, isBlank c) (raw : List Char) :
    content (gap ++ raw) = content raw := by
  rw [content, content, List.takeWhile_append_of_pos fun c hc => ne_semicolon_of_isBlank (h c hc)]
  exact trimWhile_append_left h

theorem content_eq_trim (h : ';' ∉ text) : content text = trim text := by
  rw [content, List.takeWhile_eq_self_iff.2]
  exact fun c hc => bne_iff_ne.2 fun hcomment => h (hcomment ▸ hc)

theorem content_takeWhile (raw : List Char) : content (raw.takeWhile (· != ';')) = content raw := by
  have hself : (raw.takeWhile (· != ';')).takeWhile (· != ';') = raw.takeWhile (· != ';') :=
    List.takeWhile_eq_self_iff.2 fun c hc => List.all_eq_true.1 List.all_takeWhile c hc
  rw [content, content, hself]

theorem content_append_dropWhile (text raw : List Char) :
    content (text ++ raw.dropWhile (· != ';')) = content text := by
  cases hcomment : raw.dropWhile (· != ';') with
  | nil => rw [List.append_nil]
  | cons c comment =>
    have hc := head?_dropWhile_eq_false (congrArg List.head? hcomment)
    obtain rfl : c = ';' := by simpa using hc
    exact content_append_comment text comment

theorem content_dropReturn (raw : List Char) : content (dropReturn raw) = content raw := by
  rw [dropReturn]
  split
  · next hlast =>
    obtain ⟨text, rfl⟩ : ∃ text, raw = text ++ ['\r'] := List.getLast?_eq_some_iff.1 hlast
    rw [List.dropLast_concat, content_append_blanks (List.forall_mem_singleton.2 rfl)]
  · rfl

theorem statementsFrom_congr (h : raws.map content = raws'.map content) :
    statementsFrom line place raws = statementsFrom line place raws' := by
  induction raws generalizing line place raws' with
  | nil =>
    rw [List.map_nil, eq_comm, List.map_eq_nil_iff] at h
    rw [h]
  | cons raw raws ih =>
    cases raws' with
    | nil => cases h
    | cons raw' raws' =>
      obtain ⟨hraw, hraws⟩ := List.cons.inj h
      rw [statementsFrom, statementsFrom, hraw]
      simp only [ih hraws]

theorem statementsFrom_append (line : Nat) (place : Option Section) (raws : List (List Char)) :
    ∃ place', ∀ raws', statementsFrom line place (raws ++ raws') =
      statementsFrom line place raws ++ statementsFrom (line + raws.length) place' raws' := by
  induction raws generalizing line place with
  | nil => exact ⟨place, fun raws' => rfl⟩
  | cons raw raws ih =>
    have hline : line + (raw :: raws).length = line + 1 + raws.length := by
      rw [List.length_cons]
      omega
    rw [hline]
    simp only [List.cons_append, statementsFrom]
    split
    · exact ih (line + 1) place
    · split
      · exact ih (line + 1) _
      · obtain ⟨place', hplace'⟩ := ih (line + 1) place
        exact ⟨place', fun raws' => congrArg _ (hplace' raws')⟩

theorem statements_eq_endedLines (source : List Char) :
    statements source = statementsFrom 1 none (endedLines source) := by
  obtain ⟨ended, last, hlines⟩ := exists_lines_eq source
  obtain ⟨place, hplace⟩ := statementsFrom_append 1 none (ended.map dropReturn)
  have hended : (ended ++ [last]).map content = (ended.map dropReturn ++ [last]).map content := by
    simp [content_dropReturn]
  rw [statements, hlines, endedLines_eq hlines, statementsFrom_congr hended, hplace, hplace]
  split
  · next hlast =>
    rw [hlast]
    rfl
  · rfl

theorem getElem?_of_mem_statementsFrom (h : s ∈ statementsFrom line place raws) :
    ∃ i raw, raws[i]? = some raw ∧ s.line = line + i ∧ s.text = content raw := by
  induction raws generalizing line place with
  | nil => cases h
  | cons raw raws ih =>
    have hrest {place : Option Section} (h : s ∈ statementsFrom (line + 1) place raws) :
        ∃ i raw', (raw :: raws)[i]? = some raw' ∧ s.line = line + i ∧ s.text = content raw' := by
      obtain ⟨i, raw', hraw', hline, htext⟩ := ih h
      exact ⟨i + 1, raw', hraw', by omega, htext⟩
    simp only [statementsFrom] at h
    split at h
    · exact hrest h
    · split at h
      · exact hrest h
      · obtain rfl | h := List.mem_cons.1 h
        · exact ⟨0, raw, rfl, rfl, rfl⟩
        · exact hrest h

theorem line_of_mem_statementsFrom (h : s ∈ statementsFrom line place raws) :
    line ≤ s.line ∧ s.line < line + raws.length := by
  obtain ⟨i, raw, hraw, hline, -⟩ := getElem?_of_mem_statementsFrom h
  have hi := (List.getElem?_eq_some_iff.1 hraw).1
  omega

theorem pairwise_statementsFrom :
    (statementsFrom line place raws).Pairwise (fun s s' => s.line < s'.line) := by
  induction raws generalizing line place with
  | nil => exact .nil
  | cons raw raws ih =>
    simp only [statementsFrom]
    split
    · exact ih
    · split
      · exact ih
      · refine .cons (fun s hs => ?_) ih
        exact (line_of_mem_statementsFrom hs).1

theorem filter_line_append {front back : List Statement} (hfront : ∀ s ∈ front, s.line < k)
    (hback : ∀ s ∈ back, k ≤ s.line) : (front ++ back).filter (·.line < k) = front := by
  have hkeep : ∀ s ∈ front, decide (s.line < k) := fun s hs => decide_eq_true (hfront s hs)
  have hdrop : ∀ s ∈ back, ¬ decide (s.line < k) := by
    intro s hs
    rw [decide_eq_true_eq]
    exact Nat.not_lt.2 (hback s hs)
  rw [List.filter_append, List.filter_eq_self.2 hkeep, List.filter_eq_nil_iff.2 hdrop,
    List.append_nil]

theorem statementsFrom_take (k : Nat) : statementsFrom line place (raws.take k) =
    (statementsFrom line place raws).filter (·.line < line + k) := by
  obtain ⟨place', hplace'⟩ := statementsFrom_append line place (raws.take k)
  have hall := hplace' (raws.drop k)
  rw [List.take_append_drop] at hall
  rw [hall, filter_line_append]
  · intro s hs
    have hline := line_of_mem_statementsFrom hs
    rw [List.length_take] at hline
    omega
  · intro s hs
    have hline := line_of_mem_statementsFrom hs
    rw [List.length_take, List.length_drop] at hline
    omega

variable {source source' : List Char} {before after : List Statement} {n : Nat}

theorem pairwise_statements (source : List Char) :
    (statements source).Pairwise (fun s s' => s.line < s'.line) := by
  rw [statements_eq_endedLines]
  exact pairwise_statementsFrom

theorem statements_of_take (h : endedLines source' = (endedLines source).take n) :
    statements source' = (statements source).filter (·.line < n + 1) := by
  rw [statements_eq_endedLines, statements_eq_endedLines, h, statementsFrom_take, Nat.add_comm]

theorem statements_prefix_of_take (h : endedLines source' = (endedLines source).take n) :
    statements source' <+: statements source := by
  obtain ⟨place, hplace⟩ := statementsFrom_append 1 none ((endedLines source).take n)
  have hall := hplace ((endedLines source).drop n)
  rw [List.take_append_drop] at hall
  rw [statements_eq_endedLines source', statements_eq_endedLines source, h, hall]
  exact List.prefix_append _ _

theorem filter_line_lt (h : (before ++ s :: after).Pairwise (fun s s' => s.line < s'.line)) :
    (before ++ s :: after).filter (·.line < s.line) = before := by
  obtain ⟨-, hrest, hbefore⟩ := List.pairwise_append.1 h
  apply filter_line_append
  · exact fun x hx => hbefore x hx s (List.mem_cons_self ..)
  · refine List.forall_mem_cons.2 ⟨Nat.le_refl _, fun x hx => ?_⟩
    exact Nat.le_of_lt ((List.pairwise_cons.1 hrest).1 x hx)

theorem filter_line_le (h : (before ++ s :: after).Pairwise (fun s s' => s.line < s'.line)) :
    (before ++ s :: after).filter (·.line < s.line + 1) = before ++ [s] := by
  obtain ⟨-, hrest, hbefore⟩ := List.pairwise_append.1 h
  rw [List.append_cons]
  apply filter_line_append
  · rw [List.forall_mem_append, List.forall_mem_singleton]
    refine ⟨fun x hx => ?_, Nat.lt_succ_self _⟩
    exact Nat.lt_succ_of_lt (hbefore x hx s (List.mem_cons_self ..))
  · exact (List.pairwise_cons.1 hrest).1

end Assembly
end TickMachine
