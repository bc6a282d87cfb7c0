/-! How an action over a state ends when it may stop in a fault. An equation for a composed action
becomes a statement about its parts, so that the end of a signal can be read off by `simp`. -/

namespace TickMachine

variable {ε σ α β : Type} {a : EStateM ε σ α} {f : α → EStateM ε σ β} {s s' : σ} {b : β} {e e' : ε}

@[simp] theorem pure_eq_ok_iff {x y : α} :
    (pure x : EStateM ε σ α) s = .ok y s' ↔ x = y ∧ s = s' := by
  change EStateM.Result.ok x s = .ok y s' ↔ _
  rw [EStateM.Result.ok.injEq]

@[simp] theorem pure_ne_error {x : α} : (pure x : EStateM ε σ α) s ≠ .error e s' := nofun

@[simp] theorem throw_ne_ok {x : α} : (throw e : EStateM ε σ α) s ≠ .ok x s' := nofun

@[simp] theorem throw_eq_error_iff :
    (throw e : EStateM ε σ α) s = .error e' s' ↔ e = e' ∧ s = s' := by
  change EStateM.Result.error e s = .error e' s' ↔ _
  rw [EStateM.Result.error.injEq]

@[simp] theorem get_bind_apply {f : σ → EStateM ε σ β} : (get >>= f) s = f s s := rfl

@[simp] theorem modify_apply {g : σ → σ} : (modify g : EStateM ε σ PUnit) s = .ok ⟨⟩ (g s) := rfl

theorem bind_apply : (a >>= f) s = match a s with
    | .ok x s₁ => f x s₁
    | .error e s₁ => .error e s₁ := rfl

@[simp] theorem bind_eq_ok_iff :
    (a >>= f) s = .ok b s' ↔ ∃ x s₁, a s = .ok x s₁ ∧ f x s₁ = .ok b s' := by
  rw [bind_apply]
  cases a s <;> simp [and_assoc]

@[simp] theorem bind_eq_error_iff :
    (a >>= f) s = .error e s' ↔
      a s = .error e s' ∨ ∃ x s₁, a s = .ok x s₁ ∧ f x s₁ = .error e s' := by
  rw [bind_apply]
  cases a s <;> simp [and_assoc]

theorem map_apply {g : α → β} : (g <$> a) s = (a >>= fun x => pure (g x)) s := rfl

@[simp] theorem map_eq_ok_iff {g : α → β} :
    (g <$> a) s = .ok b s' ↔ ∃ x, a s = .ok x s' ∧ g x = b := by
  rw [map_apply, bind_eq_ok_iff]
  constructor
  · intro hrun
    rcases hrun with ⟨x, s₁, h, hx⟩
    obtain ⟨rfl, rfl⟩ := pure_eq_ok_iff.1 hx
    exact ⟨x, h, rfl⟩
  · intro hrun
    rcases hrun with ⟨x, h, rfl⟩
    exact ⟨x, s', h, rfl⟩

@[simp] theorem map_eq_error_iff {g : α → β} :
    (g <$> a) s = .error e s' ↔ a s = .error e s' := by
  rw [map_apply, bind_eq_error_iff]
  simp only [pure_ne_error, and_false, exists_false, or_false]

theorem forM_nil_apply {f : α → EStateM ε σ PUnit} : ([] : List α).forM f s = .ok ⟨⟩ s := rfl

theorem forM_cons_apply {x : α} {xs : List α} {f : α → EStateM ε σ PUnit} :
    (x :: xs).forM f s = (f x >>= fun _ => xs.forM f) s := rfl

theorem forM_eq_error_iff {xs : List α} {f : α → EStateM ε σ PUnit} :
    xs.forM f s = .error e s' ↔ ∃ before x after s₁, xs = before ++ x :: after ∧
      before.forM f s = .ok ⟨⟩ s₁ ∧ f x s₁ = .error e s' := by
  induction xs generalizing s with
  | nil => simp [forM_nil_apply]
  | cons y ys ih =>
    rw [forM_cons_apply, bind_eq_error_iff]
    constructor
    · intro hrun
      rcases hrun with h | ⟨_, s₁, hy, h⟩
      · exact ⟨[], y, ys, s, rfl, rfl, h⟩
      · obtain ⟨before, x, after, s₂, rfl, hb, hx⟩ := ih.1 h
        refine ⟨y :: before, x, after, s₂, rfl, ?_, hx⟩
        rw [forM_cons_apply, bind_eq_ok_iff]
        exact ⟨_, s₁, hy, hb⟩
    · intro hrun
      rcases hrun with ⟨before, x, after, s₁, hxs, hb, hx⟩
      cases before with
      | nil =>
        obtain ⟨rfl, rfl⟩ := List.cons.inj hxs
        obtain ⟨-, rfl⟩ := pure_eq_ok_iff.1 hb
        exact .inl hx
      | cons z zs =>
        obtain ⟨rfl, rfl⟩ := List.cons.inj hxs
        rw [forM_cons_apply, bind_eq_ok_iff] at hb
        obtain ⟨_, s₂, hy, hb⟩ := hb
        exact .inr ⟨_, s₂, hy, ih.2 ⟨zs, x, after, s₁, rfl, hb, hx⟩⟩

/-- What holds at the end of an action from `s`: `Q` of its value and `E` of its fault, each with
the state that is left. -/
def Ends (a : EStateM ε σ α) (s : σ) (Q : α → σ → Prop) (E : ε → σ → Prop) : Prop :=
  (∀ x s', a s = .ok x s' → Q x s') ∧ ∀ e s', a s = .error e s' → E e s'

section
variable {Q : α → σ → Prop} {R : β → σ → Prop} {E : ε → σ → Prop}

theorem Ends.mono {Q' : α → σ → Prop} {E' : ε → σ → Prop} (h : Ends a s Q E)
    (hQ : ∀ x s', Q x s' → Q' x s') (hE : ∀ e s', E e s' → E' e s') : Ends a s Q' E' :=
  ⟨fun x s' hx => hQ x s' (h.1 x s' hx), fun e s' he => hE e s' (h.2 e s' he)⟩

@[simp] theorem ends_pure {x : α} : Ends (pure x) s Q E ↔ Q x s := by
  simp [Ends]

@[simp] theorem ends_throw : Ends (throw e) s Q E ↔ E e s := by
  simp [Ends]

@[simp] theorem ends_modify {g : σ → σ} {Q : PUnit → σ → Prop} :
    Ends (modify g) s Q E ↔ Q ⟨⟩ (g s) := by
  constructor
  · exact fun h => h.1 _ _ rfl
  · refine fun h => ⟨?_, nofun⟩
    rintro _ _ hs
    obtain ⟨-, rfl⟩ := EStateM.Result.ok.inj hs
    exact h

@[simp] theorem ends_bind :
    Ends (a >>= f) s R E ↔ Ends a s (fun x s₁ => Ends (f x) s₁ R E) E := by
  unfold Ends
  rw [bind_apply]
  cases a s <;> simp

@[simp] theorem ends_get {Q : σ → σ → Prop} : Ends get s Q E ↔ Q s s := by
  constructor
  · exact fun h => h.1 _ _ rfl
  · refine fun h => ⟨?_, nofun⟩
    rintro _ _ hs
    obtain ⟨rfl, rfl⟩ := EStateM.Result.ok.inj hs
    exact h

@[simp] theorem ends_map {g : α → β} :
    Ends (g <$> a) s R E ↔ Ends a s (fun x s₁ => R (g x) s₁) E := by
  unfold Ends
  rw [map_apply, bind_apply]
  cases a s <;> simp

theorem Ends.forM {I : σ → Prop} {xs : List α} {f : α → EStateM ε σ PUnit}
    (hf : ∀ x ∈ xs, ∀ s, I s → Ends (f x) s (fun _ => I) fun _ => I) (hs : I s) :
    Ends (xs.forM f) s (fun _ => I) fun _ => I := by
  induction xs generalizing s with
  | nil => exact ends_pure.2 hs
  | cons x xs ih =>
    refine ends_bind.2 ((hf x (List.mem_cons_self ..) s hs).mono (fun _ s₁ h₁ => ?_) fun _ _ h => h)
    exact ih (fun y hy => hf y (List.mem_cons_of_mem _ hy)) h₁

end

end TickMachine
