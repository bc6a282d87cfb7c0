import TickMachine.Json.Reader
import TickMachine.Proofs.Json.Scanned

/-! Written values are read back as what they were. The reader takes the tokens of a value on top of
any stack of open containers and leaves the stack as it was, with the value found. -/

namespace TickMachine.Json

variable {v : Json} {elements : List Json} {members : List (Option String × Json)}

def Accepted (v : Json) : Prop :=
  ∀ stack, v.tokens.foldlM accept (.value, stack) = some (.rest v, stack)

theorem foldlM_accept_element {stack : List Frame} {rest : List Token} :
    (v.tokens ++ rest).foldlM accept (.element, .array [] :: stack) =
      (v.tokens ++ rest).foldlM accept (.value, .array [] :: stack) := by
  cases v <;> rfl

theorem accepted_elements (acc : List Json) (stack : List Frame) (hne : elements ≠ [])
    (h : ∀ v ∈ elements, Accepted v) :
    ([Token.comma].intercalate (elements.map tokens) ++ [Token.closeArray]).foldlM accept
      (.value, .array acc :: stack) = some (.rest (.array (acc.reverse ++ elements)), stack) := by
  induction elements generalizing acc with
  | nil => exact absurd rfl hne
  | cons v elements ih =>
    have hv := h v (List.mem_cons_self ..) (.array acc :: stack)
    cases elements with
    | nil =>
      rw [List.map_singleton, List.intercalate_singleton, List.foldlM_append, hv]
      simp [accept]
    | cons v' elements =>
      have hrest := ih (v :: acc) (List.cons_ne_nil _ _) fun x hx =>
        h x (List.mem_cons_of_mem _ hx)
      simp only [List.map_cons, List.intercalate_cons_cons, List.append_assoc] at hrest ⊢
      rw [List.foldlM_append, hv]
      simpa [accept] using hrest

theorem accepted_members (accMembers : List (Option String × Json)) (stack : List Frame)
    (hne : members ≠ []) (h : ∀ x ∈ members, Accepted x.2) :
    ([Token.comma].intercalate (members.map memberToken) ++ [Token.closeObject]).foldlM accept
      (.name accMembers, stack) =
        some (.rest (.object (accMembers.reverse ++ members)), stack) := by
  induction members generalizing accMembers with
  | nil => exact absurd rfl hne
  | cons x members ih =>
    have hx := h x (List.mem_cons_self ..) (.object accMembers x.1 :: stack)
    have hname : (memberToken x).foldlM accept (.name accMembers, stack) =
        some (.rest x.2, .object accMembers x.1 :: stack) := by
      rw [memberToken]
      cases accMembers <;> exact hx
    cases members with
    | nil =>
      rw [List.map_singleton, List.intercalate_singleton, List.foldlM_append, hname]
      simp [accept]
    | cons x' members =>
      have hrest := ih (x :: accMembers) (List.cons_ne_nil _ _) fun y hy =>
        h y (List.mem_cons_of_mem _ hy)
      simp only [List.map_cons, List.intercalate_cons_cons, List.append_assoc] at hrest ⊢
      rw [List.foldlM_append, hname]
      simpa [accept] using hrest

theorem accepted_array (h : ∀ v ∈ elements, Accepted v) : Accepted (.array elements) := by
  intro stack
  rw [tokens, elementTokens_eq]
  cases elements with
  | nil => rfl
  | cons v elements =>
    have hall := accepted_elements [] stack (List.cons_ne_nil v elements) h
    refine Eq.trans ?_ hall
    cases elements with
    | nil =>
      rw [List.map_singleton, List.intercalate_singleton]
      exact foldlM_accept_element
    | cons v' elements =>
      simp only [List.map_cons, List.intercalate_cons_cons, List.append_assoc]
      exact foldlM_accept_element

theorem accepted_object (h : ∀ x ∈ members, Accepted x.2) : Accepted (.object members) := by
  intro stack
  rw [tokens, memberTokens_eq]
  cases members with
  | nil => rfl
  | cons x members =>
    exact accepted_members [] stack (List.cons_ne_nil x members) h

mutual

theorem accepted : (v : Json) → Accepted v
  | .null | .bool _ | .number _ | .string _ => fun _ => rfl
  | .array elements => accepted_array (elements_accepted elements)
  | .object members => accepted_object (members_accepted members)

theorem elements_accepted : (elements : List Json) → ∀ v ∈ elements, Accepted v
  | [] => nofun
  | v :: elements => List.forall_mem_cons.2 ⟨accepted v, elements_accepted elements⟩

theorem members_accepted : (members : List (Option String × Json)) → ∀ x ∈ members, Accepted x.2
  | [] => nofun
  | (_, v) :: members => List.forall_mem_cons.2 ⟨accepted v, members_accepted members⟩

end

theorem read?_of_tokens {text : List Char} (htext : tokens? text = some v.tokens) :
    read? text = some v := by
  rw [read?, htext]
  show (v.tokens.foldlM accept (.value, []) >>= _) = _
  rw [accepted v []]
  rfl

theorem read?_render (h : v.IsSimple) : read? v.render.toList = some v := by
  rw [render, String.toList_ofList]
  exact read?_of_tokens (yields_write h).tokens?

end TickMachine.Json
