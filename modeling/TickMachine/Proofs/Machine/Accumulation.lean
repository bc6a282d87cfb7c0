import Mathlib.Algebra.Ring.Int.Defs
import Mathlib.Data.List.Induction
import TickMachine.Proofs.Machine.Failure
import TickMachine.Proofs.Machine.Flow

/-! Linear forms at work. The first word of a form sets a register to a product, and each further
word adds one. So the register goes through the partial sums of the form, and the run stops at the
first product or partial sum that does not fit. -/

namespace TickMachine

def Numeric.Fits (n : Int) : Prop := Int64.minValue.toInt ≤ n ∧ n ≤ Int64.maxValue.toInt

structure Term where
  factor : Int64
  source : Int64

def linearWords (index : Nat) (register : Int64) (terms : List Term) : List Word :=
  terms.mapIdx fun i t => ⟨UInt64.ofNat (index + i), if i = 0 then .linear else .linearCont,
    [register, t.factor, t.source]⟩

namespace DataPath

def product (d : DataPath) (t : Term) : Int :=
  t.factor.toInt * ((d.register? t.source).getD 0).toInt

def form (d : DataPath) (terms : List Term) : Int := (terms.map d.product).sum

def FitsAt (d : DataPath) (before : List Term) (t : Term) : Prop :=
  Numeric.Fits (d.product t) ∧ Numeric.Fits (d.form (before ++ [t]))

def HoldsSum (register : Int64) (terms : List Term) (d d' : DataPath) : Prop :=
  if terms = [] then d'.register? register = d.register? register
  else ∃ s : Int64, d'.register? register = some s ∧ s.toInt = d.form terms

def IsExact (d : DataPath) (terms : List Term) : Prop :=
  ∀ before t after, terms = before ++ t :: after → d.FitsAt before t

end DataPath

instance (n : Int) : Decidable (Numeric.Fits n) := inferInstanceAs (Decidable (_ ∧ _))

instance (d : DataPath) (before : List Term) (t : Term) : Decidable (d.FitsAt before t) :=
  inferInstanceAs (Decidable (_ ∧ _))

variable {d : DataPath} {t : Term} {terms before after : List Term} {register : Int64} {index : Nat}

theorem Numeric.fits_iff {n : Int} : Fits n ↔ ∃ v : Int64, v.toInt = n := by
  have hnone := signed64?_eq_none_iff (n := n)
  cases hv : signed64? n with
  | none =>
    have hbounds := hnone.1 hv
    have hno : ∀ v : Int64, v.toInt ≠ n := by
      intro v hvn
      rw [signed64?_eq_some_iff.2 hvn] at hv
      cases hv
    simp only [Fits, hno, exists_false, iff_false]
    omega
  | some v =>
    have hvn := toInt_of_signed64? hv
    rw [← hvn]
    exact ⟨fun _ => ⟨v, rfl⟩, fun _ => ⟨v.minValue_le_toInt, v.toInt_le⟩⟩

theorem Alu.represent_eq_error {op : Operation} {left right : Int64} {n : Int}
    (h : ¬ Numeric.Fits n) : represent op left right n = .error (.overflow op left right) := by
  cases hv : Numeric.signed64? n with
  | none => rw [represent, hv]
  | some v => exact absurd (Numeric.fits_iff.2 ⟨v, Numeric.toInt_of_signed64? hv⟩) h

namespace DataPath

theorem form_append_singleton (d : DataPath) (terms : List Term) (t : Term) :
    d.form (terms ++ [t]) = d.form terms + d.product t := by
  simp [form]

theorem isExact_nil (d : DataPath) : d.IsExact [] := by
  intro before t after h
  exact absurd h.symm (List.append_ne_nil_of_right_ne_nil _ (List.cons_ne_nil _ _))

theorem isExact_append_singleton :
    d.IsExact (terms ++ [t]) ↔ d.IsExact terms ∧ d.FitsAt terms t := by
  constructor
  · intro h
    refine ⟨fun before u after hterms => ?_, h terms t [] rfl⟩
    apply h before u (after ++ [t])
    rw [hterms, List.append_assoc, List.cons_append]
  · rintro ⟨hterms, ht⟩ before u after h
    obtain rfl | ⟨after, last, rfl⟩ := List.eq_nil_or_concat after
    · obtain ⟨rfl, hu⟩ := List.append_inj' h rfl
      obtain rfl := List.singleton_inj.1 hu
      exact ht
    · rw [List.concat_eq_append, ← List.cons_append, ← List.append_assoc] at h
      exact hterms before u after (List.append_inj' h rfl).1

theorem exists_not_fitsAt (h : ¬ d.IsExact terms) : ∃ before t after,
    terms = before ++ t :: after ∧ d.IsExact before ∧ ¬ d.FitsAt before t := by
  induction terms using List.reverseRecOn with
  | nil => exact absurd (isExact_nil d) h
  | append_singleton terms t ih =>
    by_cases hterms : d.IsExact terms
    · refine ⟨terms, t, [], rfl, hterms, fun ht => h ?_⟩
      exact isExact_append_singleton.2 ⟨hterms, ht⟩
    · obtain ⟨before, u, after, hsplit, hbefore, hu⟩ := ih hterms
      refine ⟨before, u, after ++ [t], ?_, hbefore, hu⟩
      rw [hsplit, List.append_assoc, List.cons_append]

theorem exists_assigns {value : Int64} (h : (d.register? register).isSome) :
    ∃ d', Assigns register value d d' := by
  cases hplace : place? register d.registers.size with
  | none =>
    rw [register?, fetch?_eq_none_iff.2 hplace] at h
    cases h
  | some i => exact ⟨_, i, hplace, rfl⟩

end DataPath

namespace Machine

open DataPath

variable {m m₁ m' : Machine} {w : Word}

/-- What a run over the words of some terms does: it moves behind them and leaves their sum in the
register, and everything else in the stores is as before. -/
structure Sums (register : Int64) (terms : List Term) (m m' : Machine) : Prop where
  program : m'.program = m.program
  counter : m'.counter.toNat = m.counter.toNat + terms.length
  cells : m'.path.cells = m.path.cells
  input : m'.path.input = m.path.input
  output : m'.path.output = m.path.output
  size : m'.path.registers.size = m.path.registers.size
  others : ∀ r, r ≠ register → m'.path.register? r = m.path.register? r
  sum : HoldsSum register terms m.path m'.path

theorem Sums.refl (register : Int64) (m : Machine) : Sums register [] m m :=
  ⟨rfl, rfl, rfl, rfl, rfl, rfl, fun _ _ => rfl, rfl⟩

theorem Sums.isSome (h : Sums register before m m₁) {r : Int64}
    (hr : (m.path.register? r).isSome) : (m₁.path.register? r).isSome := by
  have hplace : place? r m.path.registers.size ≠ none := by
    intro hnone
    rw [register?, fetch?_eq_none_iff.2 hnone] at hr
    cases hr
  rw [← h.size] at hplace
  rwa [register?, ← Option.ne_none_iff_isSome, ne_eq, fetch?_eq_none_iff]

theorem Sums.put {d' : DataPath} {s : Int64} {d₀ : DataPath} (h : Sums register before m m₁)
    (hw : m₁.current? = some w) (hsize : m.program.size < UInt64.size)
    (hd₀ : m₁.path.SameStores d₀) (hd : Assigns register s d₀ d')
    (hs : s.toInt = m.path.form (before ++ [t])) :
    Sums register (before ++ [t]) m
      { m₁.later d' w.opcode.cost with counter := m₁.counter + 1 } where
  program := h.program
  counter := by
    have hnext := toNat_counter_succ hw (h.program ▸ hsize)
    rw [hnext, h.counter, List.length_append]
    rfl
  cells := hd.cells.trans (hd₀.cells.trans h.cells)
  input := hd.input.trans (hd₀.input.trans h.input)
  output := hd.output.trans (hd₀.output.trans h.output)
  size := by
    have hregisters := hd₀.registers
    exact hd.size.trans ((congrArg Array.size hregisters).trans h.size)
  others r hr := by
    have hkept : d₀.register? r = m₁.path.register? r := by
      rw [register?, hd₀.registers]
      rfl
    exact (hd.register?_of_ne hr).trans (hkept.trans (h.others r hr))
  sum := by
    rw [HoldsSum, if_neg (List.append_ne_nil_of_right_ne_nil _ (List.cons_ne_nil _ _))]
    exact ⟨s, hd.register?, hs⟩

theorem step_of_signal_error {before after : List MicroStep} {s : MicroStep} {d₁ d' : DataPath}
    {cause : DataPath.Fault} (hw : m.current? = some w)
    (hp : w.opcode.microProgram? = some (before ++ s :: after))
    (hb : before.forM (signalOf w) m.path = .ok () d₁) (hs : signalOf w s d₁ = .error cause d') :
    step m = .error (.path cause) (m.later d' (before.count .tick)) := by
  rw [step_of_current hw, execute_of_microProgram hp, bind_eq_error_iff]
  exact .inl (microSteps_eq_error_iff.2 ⟨_, _, _, _, _, _, rfl, hb, hs, rfl, rfl⟩)

def Overflows (m m' : Machine) : Prop :=
  ∃ op left right, step m = .error (.path (.alu (.overflow op left right))) m' ∧
    m.path.SameStores m'.path

section
variable {place : UInt64} {r v x y s n : Int64}

def Puts (w : Word) (r n : Int64) (d : DataPath) : Prop :=
  ∃ d₀ d', w.Performs d d' ∧ Assigns r n d₀ d' ∧ d.SameStores d₀

theorem linear_puts (hr : (d.register? r).isSome) (hy : d.register? x = some y)
    (hn : n.toInt = v.toInt * y.toInt) : Puts ⟨place, .linear, [r, v, x]⟩ r n d := by
  have hr₀ : (({ d.latchFlag n with buffer := v } : DataPath).register? r).isSome := hr
  obtain ⟨d', hd'⟩ : ∃ d', Assigns r n { d.latchFlag n with buffer := v } d' := exists_assigns hr₀
  have hperforms : Word.Performs ⟨place, .linear, [r, v, x]⟩ d d' :=
    ⟨r, v, x, y, n, rfl, rfl, rfl, hy, hn, hd'⟩
  exact ⟨_, d', hperforms, hd', rfl, rfl, rfl, rfl⟩

theorem linearCont_puts {k : Int64} (hs : d.register? r = some s) (hy : d.register? x = some y)
    (hk : k.toInt = v.toInt * y.toInt) (hn : n.toInt = k.toInt + s.toInt) :
    Puts ⟨place, .linearCont, [r, v, x]⟩ r n d := by
  have hr₀ : (({ (d.latchFlag k).latchFlag n with buffer := k } : DataPath).register? r).isSome :=
    Option.isSome_of_eq_some hs
  obtain ⟨d', hd'⟩ : ∃ d', Assigns r n { (d.latchFlag k).latchFlag n with buffer := k } d' :=
    exists_assigns hr₀
  have hperforms : Word.Performs ⟨place, .linearCont, [r, v, x]⟩ d d' :=
    ⟨r, v, x, y, s, k, n, rfl, rfl, rfl, hy, hs, hk, hn, hd'⟩
  exact ⟨_, d', hperforms, hd', rfl, rfl, rfl, rfl⟩

theorem linear_overflows (hw : m.current? = some ⟨place, .linear, [r, v, x]⟩)
    (hy : m.path.register? x = some y) (h : ¬ Numeric.Fits (v.toInt * y.toInt)) :
    ∃ m', Overflows m m' := by
  have hmul : Alu.compute .mul v y = .error (.overflow .mul v y) := Alu.represent_eq_error h
  have hp : Opcode.linear.microProgram? =
      some ([.latchBuffer .first, .tick] ++ .latchRegister .first :: []) := rfl
  have hb : [.latchBuffer .first, .tick].forM (signalOf ⟨place, .linear, [r, v, x]⟩) m.path =
      .ok () { m.path with buffer := v } := by
    simp [forM_cons_apply, signalOf, latchBuffer, Word.arg?, and_assoc]
  have hs : signalOf ⟨place, .linear, [r, v, x]⟩ (.latchRegister .first)
      { m.path with buffer := v } =
        .error (.alu (.overflow .mul v y)) { m.path with buffer := v } := by
    have hy₀ : ({ m.path with buffer := v } : DataPath).register? x = some y := hy
    simp [signalOf, latchRegister, registerResult, Word.readsInput, Word.source?, Word.arg?, hy₀,
      hmul]
  exact ⟨_, _, _, _, step_of_signal_error hw hp hb hs, ⟨rfl, rfl, rfl, rfl⟩⟩

theorem linearCont_product_overflows (hw : m.current? = some ⟨place, .linearCont, [r, v, x]⟩)
    (hy : m.path.register? x = some y) (h : ¬ Numeric.Fits (v.toInt * y.toInt)) :
    ∃ m', Overflows m m' := by
  have hmul : Alu.compute .mul v y = .error (.overflow .mul v y) := Alu.represent_eq_error h
  have hp : Opcode.linearCont.microProgram? = some ([.latchBuffer .first, .tick] ++
      .latchBuffer .second :: [.tick, .latchRegister .first]) := rfl
  have hb : [.latchBuffer .first, .tick].forM (signalOf ⟨place, .linearCont, [r, v, x]⟩) m.path =
      .ok () { m.path with buffer := v } := by
    simp [forM_cons_apply, signalOf, latchBuffer, Word.arg?, and_assoc]
  have hs : signalOf ⟨place, .linearCont, [r, v, x]⟩ (.latchBuffer .second)
      { m.path with buffer := v } =
        .error (.alu (.overflow .mul v y)) { m.path with buffer := v } := by
    have hy₀ : ({ m.path with buffer := v } : DataPath).register? x = some y := hy
    simp [signalOf, latchBuffer, Word.arg?, hy₀, hmul]
  exact ⟨_, _, _, _, step_of_signal_error hw hp hb hs, ⟨rfl, rfl, rfl, rfl⟩⟩

theorem linearCont_sum_overflows {k : Int64}
    (hw : m.current? = some ⟨place, .linearCont, [r, v, x]⟩) (hs : m.path.register? r = some s)
    (hy : m.path.register? x = some y) (hk : k.toInt = v.toInt * y.toInt)
    (h : ¬ Numeric.Fits (k.toInt + s.toInt)) : ∃ m', Overflows m m' := by
  have hadd : Alu.compute .add k s = .error (.overflow .add k s) := Alu.represent_eq_error h
  have hp : Opcode.linearCont.microProgram? = some ([.latchBuffer .first, .tick,
      .latchBuffer .second, .tick] ++ .latchRegister .first :: []) := rfl
  have hb : [.latchBuffer .first, .tick, .latchBuffer .second, .tick].forM
      (signalOf ⟨place, .linearCont, [r, v, x]⟩) m.path =
        .ok () { m.path.latchFlag k with buffer := k } := by
    have hy₀ : ({ m.path with buffer := v } : DataPath).register? x = some y := hy
    simp [forM_cons_apply, signalOf, latchBuffer, Word.arg?, hy₀, hk, and_assoc, latchFlag]
  have hs : signalOf ⟨place, .linearCont, [r, v, x]⟩ (.latchRegister .first)
      { m.path.latchFlag k with buffer := k } =
        .error (.alu (.overflow .add k s)) { m.path.latchFlag k with buffer := k } := by
    have hs₀ : ({ m.path.latchFlag k with buffer := k } : DataPath).register? r = some s := hs
    simp [signalOf, latchRegister, registerResult, Word.readsInput, Word.source?, Word.arg?, hs₀,
      hadd]
  exact ⟨_, _, _, _, step_of_signal_error hw hp hb hs, ⟨rfl, rfl, rfl, rfl⟩⟩

end

/-- The machine is about to run the words of a form, and it has the registers that are named. Behind
the first term no term may name the register of the sum. -/
structure IsReadyFor (m : Machine) (index : Nat) (register : Int64) (terms : List Term) :
    Prop where
  words : linearWords index register terms <+: m.program.toList.drop m.counter.toNat
  size : m.program.size < UInt64.size
  target : (m.path.register? register).isSome
  sources : ∀ t ∈ terms, (m.path.register? t.source).isSome
  distinct : ∀ t ∈ terms.tail, t.source ≠ register

def linearOpcodes (terms : List Term) : List Opcode :=
  terms.mapIdx fun i _ => if i = 0 then .linear else .linearCont

theorem linearOpcodes_append_singleton (terms : List Term) (t : Term) :
    linearOpcodes (terms ++ [t]) =
      linearOpcodes terms ++ [if terms = [] then .linear else .linearCont] := by
  simp [linearOpcodes, List.mapIdx_concat]

theorem sum_cost_linearOpcodes (terms : List Term) :
    ((linearOpcodes terms).map Opcode.cost).sum = 3 * terms.length - 1 := by
  induction terms using List.reverseRecOn with
  | nil => rfl
  | append_singleton terms t ih =>
    rw [linearOpcodes_append_singleton, List.map_append, List.sum_append, ih, List.length_append]
    cases terms with
    | nil => rfl
    | cons u terms =>
      simp [Opcode.cost]
      omega

variable {place : UInt64}

theorem Sums.current? (hm : IsReadyFor m index register (before ++ t :: after))
    (h : Sums register before m m₁) : ∃ place, m₁.current? =
      some ⟨place, if before = [] then .linear else .linearCont,
        [register, t.factor, t.source]⟩ := by
  refine ⟨UInt64.ofNat (index + before.length), ?_⟩
  have hword : (linearWords index register (before ++ t :: after))[before.length]? =
      some ⟨UInt64.ofNat (index + before.length), if before = [] then .linear else .linearCont,
        [register, t.factor, t.source]⟩ := by
    simp [linearWords]
  have hlt := (List.getElem?_eq_some_iff.1 hword).1
  obtain ⟨rest, hrest⟩ := hm.words
  have hprogram : m.program.toList[m.counter.toNat + before.length]? =
      (linearWords index register (before ++ t :: after))[before.length]? := by
    rw [← List.getElem?_drop, ← hrest, List.getElem?_append_left hlt]
  rw [Machine.current?, h.program, h.counter, ← Array.getElem?_toList, hprogram, hword]

theorem Sums.register?_source (h : Sums register before m m₁)
    (hne : before ≠ [] → t.source ≠ register) :
    m₁.path.register? t.source = m.path.register? t.source := by
  by_cases heq : t.source = register
  · have hnil : before = [] := by
      by_contra hbefore
      exact hne hbefore heq
    have hsum := h.sum
    rwa [HoldsSum, if_pos hnil, ← heq] at hsum
  · exact h.others _ heq

theorem IsReadyFor.source_ne (hm : IsReadyFor m index register (before ++ t :: after))
    (hne : before ≠ []) : t.source ≠ register := by
  obtain ⟨u, before, rfl⟩ := List.exists_cons_of_ne_nil hne
  exact hm.distinct t (List.mem_append_right _ (List.mem_cons_self ..))

theorem Sums.exists_word (hm : IsReadyFor m index register (before ++ t :: after))
    (h : Sums register before m m₁) : ∃ place y,
      m₁.current? = some ⟨place, if before = [] then .linear else .linearCont,
        [register, t.factor, t.source]⟩ ∧
      m₁.path.register? t.source = some y ∧ m.path.product t = t.factor.toInt * y.toInt := by
  obtain ⟨place, hw⟩ := h.current? hm
  have hmem : t ∈ before ++ t :: after := List.mem_append_right _ (List.mem_cons_self ..)
  obtain ⟨y, hy⟩ := Option.isSome_iff_exists.1 (hm.sources t hmem)
  refine ⟨place, y, hw, (h.register?_source hm.source_ne).trans hy, ?_⟩
  rw [product, hy, Option.getD_some]

theorem Sums.next (hm : IsReadyFor m index register (before ++ t :: after))
    (h : Sums register before m m₁) (hfits : m.path.FitsAt before t) :
    ∃ m', step m₁ = .ok (.executed (if before = [] then .linear else .linearCont)) m' ∧
      Sums register (before ++ [t]) m m' := by
  obtain ⟨place, y, hw, hy, hproduct⟩ := h.exists_word hm
  obtain ⟨⟨k, hk⟩, n, hn⟩ := hfits.imp Numeric.fits_iff.1 Numeric.fits_iff.1
  have hsum := h.sum
  have hlast := form_append_singleton m.path before t
  by_cases hnil : before = []
  · rw [if_pos hnil] at hw ⊢
    have hform : n.toInt = t.factor.toInt * y.toInt := by
      rw [hn, hlast, hnil, ← hproduct]
      exact Int.zero_add _
    obtain ⟨d₀, d', hperforms, hd', hd₀⟩ := linear_puts (h.isSome hm.target) hy hform
    exact ⟨_, step_of_performs hw rfl hperforms, h.put hw hm.size hd₀ hd' hn⟩
  · rw [if_neg hnil] at hw ⊢
    rw [HoldsSum, if_neg hnil] at hsum
    obtain ⟨s, hs, hform⟩ := hsum
    have hadd : n.toInt = k.toInt + s.toInt := by
      rw [hn, hlast, hk, hform, Int.add_comm]
    obtain ⟨d₀, d', hperforms, hd', hd₀⟩ := linearCont_puts hs hy (hk.trans hproduct) hadd
    exact ⟨_, step_of_performs hw rfl hperforms, h.put hw hm.size hd₀ hd' hn⟩

theorem Sums.overflows (hm : IsReadyFor m index register (before ++ t :: after))
    (h : Sums register before m m₁) (hfits : ¬ m.path.FitsAt before t) :
    ∃ m', Overflows m₁ m' := by
  obtain ⟨place, y, hw, hy, hproduct⟩ := h.exists_word hm
  have hsum := h.sum
  have hlast := form_append_singleton m.path before t
  by_cases hnil : before = []
  · rw [if_pos hnil] at hw
    have hform : m.path.form (before ++ [t]) = m.path.product t := by
      rw [hlast, hnil]
      exact Int.zero_add _
    have hover : ¬ Numeric.Fits (t.factor.toInt * y.toInt) := by
      rw [← hproduct]
      exact fun hfit => hfits ⟨hfit, hform ▸ hfit⟩
    exact linear_overflows hw hy hover
  · rw [if_neg hnil] at hw
    rw [HoldsSum, if_neg hnil] at hsum
    obtain ⟨s, hs, hform⟩ := hsum
    by_cases hfit : Numeric.Fits (m.path.product t)
    · obtain ⟨k, hk⟩ := Numeric.fits_iff.1 hfit
      have hadd : m.path.form (before ++ [t]) = k.toInt + s.toInt := by
        rw [hlast, hk, hform, Int.add_comm]
      have hover : ¬ Numeric.Fits (k.toInt + s.toInt) := by
        rw [← hadd]
        exact fun hfit' => hfits ⟨hfit, hfit'⟩
      exact linearCont_sum_overflows hw hs hy (hk.trans hproduct) hover
    · exact linearCont_product_overflows hw hy (hproduct ▸ hfit)

theorem exists_sums (hm : IsReadyFor m index register (before ++ after))
    (hexact : m.path.IsExact before) :
    ∃ m', Executes m (linearOpcodes before) m' ∧ Sums register before m m' := by
  induction before using List.reverseRecOn generalizing after with
  | nil => exact ⟨m, .nil, .refl register m⟩
  | append_singleton before t ih =>
    obtain ⟨hbefore, ht⟩ := isExact_append_singleton.1 hexact
    rw [List.append_assoc, List.singleton_append] at hm
    obtain ⟨m₁, hrun, hsums⟩ := ih hm hbefore
    obtain ⟨m', hstep, hsums'⟩ := hsums.next hm ht
    refine ⟨m', ?_, hsums'⟩
    rw [linearOpcodes_append_singleton]
    exact hrun.append (.cons hstep .nil)

theorem run_of_isExact (hm : IsReadyFor m index register terms) (h : m.path.IsExact terms) :
    ∃ m', Executes m (linearOpcodes terms) m' ∧ Sums register terms m m' ∧
      (m.tick.toNat + (3 * terms.length - 1) < UInt64.size →
        m'.tick.toNat = m.tick.toNat + (3 * terms.length - 1)) := by
  rw [← List.append_nil terms] at hm
  obtain ⟨m', hrun, hsums⟩ := exists_sums hm h
  refine ⟨m', hrun, hsums, fun hlt => ?_⟩
  rw [hrun.tick, sum_cost_linearOpcodes]
  exact tick_later (d := m.path) hlt

theorem run_of_not_isExact (hm : IsReadyFor m index register terms)
    (h : ¬ m.path.IsExact terms) : ∃ before t after m₁ m₂, terms = before ++ t :: after ∧
      m.path.IsExact before ∧ ¬ m.path.FitsAt before t ∧
      Executes m (linearOpcodes before) m₁ ∧ Sums register before m m₁ ∧ Overflows m₁ m₂ ∧
      HoldsSum register before m.path m₂.path := by
  obtain ⟨before, t, after, rfl, hbefore, ht⟩ := exists_not_fitsAt h
  obtain ⟨m₁, hrun, hsums⟩ := exists_sums hm hbefore
  obtain ⟨m₂, hover⟩ := hsums.overflows hm ht
  obtain ⟨-, -, -, -, hsame⟩ := id hover
  have hholds : HoldsSum register before m.path m₂.path := by
    have hsum := hsums.sum
    have hregister : m₂.path.register? register = m₁.path.register? register := by
      rw [register?, hsame.registers]
      rfl
    rwa [HoldsSum, ← hregister] at hsum
  exact ⟨before, t, after, m₁, m₂, rfl, hbefore, ht, hrun, hsums, hover, hholds⟩

end Machine
end TickMachine
