import Mathlib.Data.List.Forall2
import TickMachine.Proofs.Except

/-! Passes over a list of computations that may fail, member by member. A fold that takes up one
item after the other succeeds if every member of the list is an item and the items go together. -/

namespace TickMachine

variable {ε σ α β : Type}

theorem mapM_eq_ok_iff_forall₂ {f : α → Except ε β} {xs : List α} {ys : List β} :
    xs.mapM f = .ok ys ↔ List.Forall₂ (fun x y => f x = .ok y) xs ys := by
  rw [mapM_eq_ok_iff]
  induction xs generalizing ys with
  | nil => cases ys <;> simp
  | cons x xs ih => cases ys <;> simp [ih]

theorem forall₂_append_left_iff {R : α → β → Prop} {xs xs' : List α} {ys : List β} :
    List.Forall₂ R (xs ++ xs') ys ↔ ∃ zs zs', ys = zs ++ zs' ∧ List.Forall₂ R xs zs ∧
      List.Forall₂ R xs' zs' := by
  constructor
  · intro h
    have hfront := (List.forall₂_take_append ys xs xs' h.flip).flip
    have hback := (List.forall₂_drop_append ys xs xs' h.flip).flip
    exact ⟨_, _, (List.take_append_drop xs.length ys).symm, hfront, hback⟩
  · rintro ⟨zs, zs', rfl, h, h'⟩
    exact List.rel_append h h'

theorem exists_mem_of_forall₂ {R : α → β → Prop} {xs : List α} {ys : List β} {x : α}
    (h : List.Forall₂ R xs ys) (hx : x ∈ xs) : ∃ y ∈ ys, R x y := by
  induction h with
  | nil => cases hx
  | cons hxy _ ih =>
    rcases List.mem_cons.1 hx with hx | hx
    · exact ⟨_, List.mem_cons_self .., hx ▸ hxy⟩
    · obtain ⟨y, hy, hxy⟩ := ih hx
      exact ⟨y, List.mem_cons_of_mem _ hy, hxy⟩

theorem getElem?_of_forall₂ {R : α → β → Prop} {xs : List α} {ys : List β} {x : α} {i : Nat}
    (h : List.Forall₂ R xs ys) (hx : xs[i]? = some x) : ∃ y, ys[i]? = some y ∧ R x y := by
  induction h generalizing i with
  | nil => cases hx
  | cons hxy _ ih =>
    cases i with
    | zero => exact ⟨_, rfl, Option.some.inj hx ▸ hxy⟩
    | succ i => exact ih hx

/-- A fold whose steps each take up one item, where `P` of the state says that the items so far go
together, and more items never make up for ones that do not. -/
theorem foldlM_eq_ok_iff_forall₂ {f : σ → α → Except ε σ} {R : α → β → Prop} {ext : σ → α → β → σ}
    {P : σ → Prop} (hstep : ∀ s x s', P s → (f s x = .ok s' ↔ ∃ y, R x y ∧ ext s x y = s' ∧ P s'))
    (hback : ∀ s x y, P (ext s x y) → P s) {xs : List α} {s s' : σ} (hs : P s) :
    xs.foldlM f s = .ok s' ↔ ∃ ys, List.Forall₂ R xs ys ∧
      (xs.zip ys).foldl (fun s p => ext s p.1 p.2) s = s' ∧ P s' := by
  have hbacks (ps : List (α × β)) (s : σ) (h : P (ps.foldl (fun s p => ext s p.1 p.2) s)) :
      P s := by
    induction ps generalizing s with
    | nil => exact h
    | cons p ps ih => exact hback s p.1 p.2 (ih _ h)
  induction xs generalizing s with
  | nil =>
    constructor
    · rintro ⟨⟩
      exact ⟨[], .nil, rfl, hs⟩
    · rintro ⟨_, ⟨⟩, rfl, -⟩
      rfl
  | cons x xs ih =>
    rw [List.foldlM_cons, except_bind_eq_ok_iff]
    constructor
    · rintro ⟨s₁, hx, hxs⟩
      obtain ⟨y, hy, rfl, hs₁⟩ := (hstep s x s₁ hs).1 hx
      obtain ⟨ys, hys, hext, hs'⟩ := (ih hs₁).1 hxs
      exact ⟨y :: ys, .cons hy hys, hext, hs'⟩
    · rintro ⟨_, _ | @⟨_, y, _, ys, hy, hys⟩, hext, hs'⟩
      have hs₁ : P (ext s x y) := hbacks _ _ (by rw [← hext] at hs'; exact hs')
      exact ⟨_, (hstep s x _ hs).2 ⟨y, hy, rfl, hs₁⟩, (ih hs₁).2 ⟨ys, hys, hext, hs'⟩⟩

end TickMachine
