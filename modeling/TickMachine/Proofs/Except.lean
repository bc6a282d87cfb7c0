/-! When a computation that may fail, or a pass over a list of such computations, succeeds, and what
it fails with otherwise. -/

namespace TickMachine

variable {ε ε' σ σ' α α' β β' : Type}

theorem except_bind_eq_ok_iff {x : Except ε α} {f : α → Except ε β} {b : β} :
    x >>= f = .ok b ↔ ∃ a, x = .ok a ∧ f a = .ok b := by
  cases x with
  | ok a =>
    constructor
    · exact fun h => ⟨a, rfl, h⟩
    · intro hrun
      rcases hrun with ⟨a', ha, h⟩
      obtain rfl := Except.ok.inj ha
      exact h
  | error e => exact ⟨nofun, by rintro ⟨_, h, -⟩; cases h⟩

theorem except_bind_eq_error_iff {x : Except ε α} {f : α → Except ε β} {e : ε} :
    x >>= f = .error e ↔ x = .error e ∨ ∃ a, x = .ok a ∧ f a = .error e := by
  cases x with
  | ok a =>
    refine ⟨fun h => .inr ⟨a, rfl, h⟩, ?_⟩
    rintro (h | ⟨a', ha, h⟩)
    · cases h
    · obtain rfl := Except.ok.inj ha
      exact h
  | error e' =>
    constructor
    · rintro ⟨⟩
      exact .inl rfl
    · rintro (⟨⟨⟩⟩ | ⟨_, h, -⟩)
      · rfl
      · cases h

theorem except_map_eq_ok_iff {x : Except ε α} {f : α → β} {b : β} :
    f <$> x = .ok b ↔ ∃ a, x = .ok a ∧ f a = b := by
  cases x with
  | ok a =>
    change Except.ok (f a) = .ok b ↔ _
    simp
  | error e => exact ⟨nofun, by rintro ⟨_, h, -⟩; cases h⟩

theorem mapError_eq_ok_iff {x : Except ε α} {f : ε → ε'} {a : α} :
    x.mapError f = .ok a ↔ x = .ok a := by
  cases x with
  | ok a' =>
    change (Except.ok a' : Except ε' α) = .ok a ↔ _
    rw [Except.ok.injEq, Except.ok.injEq]
  | error e => exact ⟨nofun, nofun⟩

theorem mapError_eq_error_iff {x : Except ε α} {f : ε → ε'} {e' : ε'} :
    x.mapError f = .error e' ↔ ∃ e, x = .error e ∧ f e = e' := by
  cases x with
  | ok a => exact ⟨nofun, by rintro ⟨_, h, -⟩; cases h⟩
  | error e =>
    change (Except.error (f e) : Except ε' α) = .error e' ↔ _
    simp

theorem except_forM_eq_ok_iff {f : α → Except ε Unit} {xs : List α} :
    xs.forM f = .ok () ↔ ∀ x ∈ xs, f x = .ok () := by
  induction xs with
  | nil => exact ⟨fun _ => nofun, fun _ => rfl⟩
  | cons x xs ih =>
    rw [List.forall_mem_cons, ← ih]
    change (f x >>= fun _ => xs.forM f) = .ok ⟨⟩ ↔ _
    rw [except_bind_eq_ok_iff]
    exact ⟨fun ⟨_, hx, hxs⟩ => ⟨hx, hxs⟩, fun ⟨hx, hxs⟩ => ⟨_, hx, hxs⟩⟩

theorem except_forM_eq_error_iff {f : α → Except ε Unit} {xs : List α} {e : ε} :
    xs.forM f = .error e ↔ ∃ before x after, xs = before ++ x :: after ∧
      (∀ y ∈ before, f y = .ok ()) ∧ f x = .error e := by
  induction xs with
  | nil => exact ⟨nofun, by rintro ⟨_ | _, _, _, h, -⟩ <;> cases h⟩
  | cons x xs ih =>
    change (f x >>= fun _ => xs.forM f) = .error e ↔ _
    cases hx : f x with
    | error e' =>
      constructor
      · rintro ⟨⟩
        exact ⟨[], x, xs, rfl, nofun, hx⟩
      · rintro ⟨_ | ⟨y, before⟩, x', after, h, hbefore, hx'⟩
        · obtain ⟨rfl, rfl⟩ := List.cons.inj h
          rw [hx] at hx'
          exact hx'
        · obtain ⟨rfl, rfl⟩ := List.cons.inj h
          rw [hbefore x (List.mem_cons_self ..)] at hx
          cases hx
    | ok u =>
      refine ih.trans ⟨?_, ?_⟩
      · rintro ⟨before, x', after, rfl, hbefore, hx'⟩
        exact ⟨x :: before, x', after, rfl, List.forall_mem_cons.2 ⟨hx, hbefore⟩, hx'⟩
      · rintro ⟨_ | ⟨y, before⟩, x', after, h, hbefore, hx'⟩
        · obtain ⟨rfl, rfl⟩ := List.cons.inj h
          rw [hx] at hx'
          cases hx'
        · obtain ⟨rfl, rfl⟩ := List.cons.inj h
          exact ⟨before, x', after, rfl, (List.forall_mem_cons.1 hbefore).2, hx'⟩

theorem mapM_eq_ok_iff {f : α → Except ε β} {xs : List α} {ys : List β} :
    xs.mapM f = .ok ys ↔ xs.map f = ys.map .ok := by
  induction xs generalizing ys with
  | nil =>
    rw [List.mapM_nil]
    change Except.ok [] = .ok ys ↔ _
    cases ys <;> simp
  | cons x xs ih =>
    rw [List.mapM_cons, except_bind_eq_ok_iff]
    cases ys with
    | nil => simp [except_map_eq_ok_iff]
    | cons y ys => simp [except_map_eq_ok_iff, ih]

theorem length_of_mapM_eq_ok {f : α → Except ε β} {xs : List α} {ys : List β}
    (h : xs.mapM f = .ok ys) : ys.length = xs.length := by
  have hlen := congrArg List.length (mapM_eq_ok_iff.1 h)
  rw [List.length_map, List.length_map] at hlen
  exact hlen.symm

theorem getElem?_of_mapM_eq_ok {f : α → Except ε β} {xs : List α} {ys : List β}
    (h : xs.mapM f = .ok ys) (i : Nat) : xs[i]?.map f = ys[i]?.map .ok := by
  rw [← List.getElem?_map, ← List.getElem?_map, mapM_eq_ok_iff.1 h]

theorem exists_of_mapM_eq_ok {f : α → Except ε β} {xs : List α} {ys : List β} {y : β}
    (h : xs.mapM f = .ok ys) (hy : y ∈ ys) : ∃ x ∈ xs, f x = .ok y := by
  rw [mapM_eq_ok_iff] at h
  have hmem : (.ok y : Except ε β) ∈ ys.map .ok := List.mem_map_of_mem hy
  rwa [← h, List.mem_map] at hmem

theorem exists_of_mem_of_mapM_eq_ok {f : α → Except ε β} {xs : List α} {ys : List β} {x : α}
    (h : xs.mapM f = .ok ys) (hx : x ∈ xs) : ∃ y, f x = .ok y := by
  have hmem : f x ∈ xs.map f := List.mem_map_of_mem hx
  rw [mapM_eq_ok_iff.1 h] at hmem
  obtain ⟨y, -, hy⟩ := List.mem_map.1 hmem
  exact ⟨y, hy.symm⟩

theorem mapM_eq_error_iff {f : α → Except ε β} {xs : List α} {e : ε} :
    xs.mapM f = .error e ↔ ∃ before x after, xs = before ++ x :: after ∧
      (∀ y ∈ before, ∃ b, f y = .ok b) ∧ f x = .error e := by
  induction xs with
  | nil =>
    rw [List.mapM_nil]
    exact ⟨nofun, by rintro ⟨_ | _, _, _, h, -⟩ <;> cases h⟩
  | cons x xs ih =>
    rw [List.mapM_cons, except_bind_eq_error_iff]
    constructor
    · rintro (hx | ⟨b, hx, hxs⟩)
      · exact ⟨[], x, xs, rfl, nofun, hx⟩
      · obtain hxs | ⟨_, -, hok⟩ := except_bind_eq_error_iff.1 hxs
        · obtain ⟨before, x', after, rfl, hbefore, hx'⟩ := ih.1 hxs
          exact ⟨x :: before, x', after, rfl, List.forall_mem_cons.2 ⟨⟨b, hx⟩, hbefore⟩, hx'⟩
        · cases hok
    · rintro ⟨_ | ⟨y, before⟩, x', after, h, hbefore, hx'⟩
      · obtain ⟨rfl, rfl⟩ := List.cons.inj h
        exact .inl hx'
      · obtain ⟨rfl, rfl⟩ := List.cons.inj h
        obtain ⟨⟨b, hx⟩, hbefore⟩ := List.forall_mem_cons.1 hbefore
        have hxs := ih.2 ⟨before, x', after, rfl, hbefore, hx'⟩
        exact .inr ⟨b, hx, except_bind_eq_error_iff.2 (.inl hxs)⟩

theorem foldlM_eq_error_iff {f : σ → α → Except ε σ} {xs : List α} {s : σ} {e : ε} :
    xs.foldlM f s = .error e ↔ ∃ before x after s₁, xs = before ++ x :: after ∧
      before.foldlM f s = .ok s₁ ∧ f s₁ x = .error e := by
  constructor
  · intro h
    induction xs generalizing s with
    | nil => cases h
    | cons x xs ih =>
      rw [List.foldlM_cons, except_bind_eq_error_iff] at h
      obtain hx | ⟨s₁, hx, hxs⟩ := h
      · exact ⟨[], x, xs, s, rfl, rfl, hx⟩
      · obtain ⟨before, x', after, s₂, rfl, hbefore, hx'⟩ := ih hxs
        refine ⟨x :: before, x', after, s₂, rfl, ?_, hx'⟩
        rw [List.foldlM_cons, hx]
        exact hbefore
  · rintro ⟨before, x, after, s₁, rfl, hbefore, hx⟩
    rw [List.foldlM_append, hbefore]
    change (f s₁ x >>= fun s₂ => after.foldlM f s₂) = .error e
    rw [hx]
    rfl

theorem foldlM_keeps_of_mem {f : σ → α → Except ε σ} {I : σ → Prop} {xs : List α} {s s' : σ}
    (hf : ∀ x ∈ xs, ∀ s s', I s → f s x = .ok s' → I s') (hs : I s) (h : xs.foldlM f s = .ok s') :
    I s' := by
  induction xs generalizing s with
  | nil => cases h; exact hs
  | cons x xs ih =>
    rw [List.foldlM_cons, except_bind_eq_ok_iff] at h
    obtain ⟨s₁, hx, h⟩ := h
    obtain ⟨hfx, hf⟩ := List.forall_mem_cons.1 hf
    exact ih hf (hfx s s₁ hs hx) h

theorem foldlM_keeps {f : σ → α → Except ε σ} {I : σ → Prop} {xs : List α} {s s' : σ}
    (hf : ∀ s x s', I s → f s x = .ok s' → I s') (hs : I s) (h : xs.foldlM f s = .ok s') : I s' :=
  foldlM_keeps_of_mem (fun x _ s s' => hf s x s') hs h

theorem foldlM_carries {f g : σ → α → Except ε σ} {xs : List α} {s s' : σ}
    (hfg : ∀ s x s', f s x = .ok s' → g s x = .ok s') (h : xs.foldlM f s = .ok s') :
    xs.foldlM g s = .ok s' := by
  induction xs generalizing s with
  | nil => exact h
  | cons x xs ih =>
    rw [List.foldlM_cons, except_bind_eq_ok_iff] at h ⊢
    obtain ⟨s₁, hx, h⟩ := h
    exact ⟨s₁, hfg s x s₁ hx, ih h⟩

/-! ### Outcomes seen through a map -/

def mapBoth (f : ε → ε') (g : α → α') : Except ε α → Except ε' α'
  | .ok a => .ok (g a)
  | .error e => .error (f e)

theorem mapBoth_bind {f : ε → ε'} {g : α → α'} {h : β → β'} {x : Except ε α} {k : α → Except ε β}
    {k' : α' → Except ε' β'} (hk : ∀ a, x = .ok a → k' (g a) = mapBoth f h (k a)) :
    mapBoth f g x >>= k' = mapBoth f h (x >>= k) := by
  cases x with
  | ok a => exact hk a rfl
  | error e => rfl

theorem mapBoth_map {f : ε → ε'} {g : α → α'} {h : β → β'} {x : Except ε α} {k : α → β}
    {k' : α' → β'} (hk : ∀ a, k' (g a) = h (k a)) :
    (mapBoth f g x).map k' = mapBoth f h (x.map k) := by
  cases x with
  | ok a => exact congrArg Except.ok (hk a)
  | error e => rfl

theorem mapM_mapBoth {f : ε → ε'} {g : β → β'} {k : α → α'} {r : α → Except ε β}
    {q : α' → Except ε' β'} {xs : List α} (h : ∀ x ∈ xs, q (k x) = mapBoth f g (r x)) :
    (xs.map k).mapM q = mapBoth f (List.map g) (xs.mapM r) := by
  induction xs with
  | nil => rfl
  | cons x xs ih =>
    obtain ⟨hx, hxs⟩ := List.forall_mem_cons.1 h
    rw [List.map_cons, List.mapM_cons, List.mapM_cons, hx, ih hxs]
    refine mapBoth_bind fun b _ => ?_
    exact mapBoth_bind fun bs _ => rfl

theorem foldlM_mapBoth {f : ε → ε'} {g : σ → σ'} {k : α → α'} {step : σ → α → Except ε σ}
    {step' : σ' → α' → Except ε' σ'} {P : σ → Prop} {xs : List α} {s : σ}
    (hstep : ∀ x ∈ xs, ∀ s, P s → step' (g s) (k x) = mapBoth f g (step s x))
    (hkeep : ∀ x ∈ xs, ∀ s s', P s → step s x = .ok s' → P s') (hs : P s) :
    (xs.map k).foldlM step' (g s) = mapBoth f g (xs.foldlM step s) := by
  induction xs generalizing s with
  | nil => rfl
  | cons x xs ih =>
    obtain ⟨hstepx, hstep⟩ := List.forall_mem_cons.1 hstep
    obtain ⟨hkeepx, hkeep⟩ := List.forall_mem_cons.1 hkeep
    rw [List.map_cons, List.foldlM_cons, List.foldlM_cons, hstepx s hs]
    exact mapBoth_bind fun s' hs' => ih hstep hkeep (hkeepx s s' hs hs')

end TickMachine
