import Mathlib.Algebra.Ring.Nat
import Mathlib.Data.List.Nodup
import TickMachine.Proofs.Assembly.WellFormed

/-! Names for things that lie one after the other. Each thing takes up some places and may define a
name, which stands for the number of places in front of it; a table of such names has them all, and
each once if no two things define the same. -/

namespace TickMachine.Assembly

variable {α : Type} {name? : α → Option (List Char)} {size : α → Nat} {x : α} {xs : List α}
  {name : List Char} {n address : Nat} {v : Int64}

def DefinedAt (name? : α → Option (List Char)) (size : α → Nat) (xs : List α) (name : List Char)
    (n : Nat) : Prop :=
  ∃ before x after, xs = before ++ x :: after ∧ name? x = some name ∧ n = (before.map size).sum

def entriesFrom (name? : α → Option (List Char)) (size : α → Nat) (address : Nat) :
    List α → Symbols
  | [] => []
  | x :: xs => (name? x).toList.map (fun name => (name, Int64.ofNat address)) ++
      entriesFrom name? size (address + size x) xs

theorem definedAt_cons_iff : DefinedAt name? size (x :: xs) name n ↔
    name? x = some name ∧ n = 0 ∨ ∃ k, DefinedAt name? size xs name k ∧ n = size x + k := by
  constructor
  · rintro ⟨_ | ⟨y, before⟩, z, after, h, hz, rfl⟩
    · obtain ⟨rfl, -⟩ := List.cons.inj h
      exact .inl ⟨hz, rfl⟩
    · obtain ⟨rfl, rfl⟩ := List.cons.inj h
      exact .inr ⟨_, ⟨before, z, after, rfl, hz, rfl⟩, by rw [List.map_cons, List.sum_cons]⟩
  · rintro (⟨hx, rfl⟩ | ⟨_, ⟨before, z, after, rfl, hz, rfl⟩, rfl⟩)
    · exact ⟨[], x, xs, rfl, hx, rfl⟩
    · exact ⟨x :: before, z, after, rfl, hz, by rw [List.map_cons, List.sum_cons]⟩

theorem mem_entriesFrom_iff : (name, v) ∈ entriesFrom name? size address xs ↔
    ∃ n, DefinedAt name? size xs name n ∧ v = Int64.ofNat (address + n) := by
  induction xs generalizing address with
  | nil => simp [entriesFrom, DefinedAt]
  | cons x xs ih =>
    simp only [entriesFrom, List.mem_append, List.mem_map, Option.mem_toList, ih,
      definedAt_cons_iff, Prod.mk.injEq]
    constructor
    · rintro (⟨_, hx, rfl, rfl⟩ | ⟨k, hk, rfl⟩)
      · exact ⟨0, .inl ⟨hx, rfl⟩, rfl⟩
      · exact ⟨size x + k, .inr ⟨k, hk, rfl⟩, by rw [Nat.add_assoc]⟩
    · rintro ⟨_, ⟨hx, rfl⟩ | ⟨k, hk, rfl⟩, rfl⟩
      · exact .inl ⟨name, hx, rfl, rfl⟩
      · exact .inr ⟨k, hk, by rw [Nat.add_assoc]⟩

theorem map_fst_entriesFrom :
    (entriesFrom name? size address xs).map Prod.fst = xs.filterMap name? := by
  induction xs generalizing address with
  | nil => rfl
  | cons x xs ih =>
    rw [entriesFrom, List.map_append, ih, List.filterMap_cons]
    cases name? x <;> rfl

def IsUnambiguous (names : Symbols) : Prop := (names.map Prod.fst).Nodup

theorem lookup_eq_none_iff_notMem {names : Symbols} :
    names.lookup name = none ↔ name ∉ names.map Prod.fst := by
  simp [List.lookup_eq_none_iff]
  grind

theorem isUnambiguous_cons_iff {names : Symbols} : IsUnambiguous ((name, v) :: names) ↔
    names.lookup name = none ∧ IsUnambiguous names := by
  rw [IsUnambiguous, List.map_cons, List.nodup_cons, lookup_eq_none_iff_notMem]
  rfl

theorem isUnambiguous_entriesFrom_iff :
    IsUnambiguous (entriesFrom name? size address xs).reverse ↔ (xs.filterMap name?).Nodup := by
  rw [IsUnambiguous, List.map_reverse, List.nodup_reverse, map_fst_entriesFrom]

theorem lookup_eq_some_iff_mem {names : Symbols} (h : IsUnambiguous names) :
    names.lookup name = some v ↔ (name, v) ∈ names := by
  refine ⟨mem_of_lookup, fun hmem => ?_⟩
  cases hlookup : names.lookup name with
  | none => exact absurd (List.mem_map_of_mem hmem) (lookup_eq_none_iff_notMem.1 hlookup)
  | some v' =>
    have hsame : (name, v') = (name, v) :=
      List.inj_on_of_nodup_map h (mem_of_lookup hlookup) hmem rfl
    rw [(Prod.mk.inj hsame).2]

theorem lookup_entriesFrom_eq_some_iff (h : (xs.filterMap name?).Nodup) :
    (entriesFrom name? size address xs).reverse.lookup name = some v ↔
      ∃ n, DefinedAt name? size xs name n ∧ v = Int64.ofNat (address + n) := by
  rw [lookup_eq_some_iff_mem (isUnambiguous_entriesFrom_iff.2 h), List.mem_reverse,
    mem_entriesFrom_iff]

theorem existsUnique_place {a : Nat} (h : a < (xs.map size).sum) : ∃! i, ∃ x, xs[i]? = some x ∧
    ((xs.take i).map size).sum ≤ a ∧ a < ((xs.take i).map size).sum + size x := by
  -- Induction on the items: a place behind the first one is a place of the others.
  induction xs generalizing a with
  | nil => simp at h
  | cons x xs ih =>
    rw [List.map_cons, List.sum_cons] at h
    by_cases ha : a < size x
    · refine ⟨0, ⟨x, rfl, by simp, by simpa using ha⟩, ?_⟩
      rintro (_ | i) ⟨y, hy, hle, hlt⟩
      · rfl
      · rw [List.take_succ_cons, List.map_cons, List.sum_cons] at hle
        omega
    · obtain ⟨i, ⟨y, hy, hle, hlt⟩, hunique⟩ := ih (a := a - size x) (by omega)
      refine ⟨i + 1, ⟨y, hy, ?_, ?_⟩, ?_⟩
      · rw [List.take_succ_cons, List.map_cons, List.sum_cons]
        omega
      · rw [List.take_succ_cons, List.map_cons, List.sum_cons]
        omega
      · rintro (_ | j) ⟨z, hz, hle', hlt'⟩
        · obtain rfl := Option.some.inj hz
          exact absurd (by simpa using hlt') ha
        · rw [List.take_succ_cons, List.map_cons, List.sum_cons] at hle' hlt'
          exact congrArg (· + 1) (hunique j ⟨z, hz, by omega, by omega⟩)

end TickMachine.Assembly
