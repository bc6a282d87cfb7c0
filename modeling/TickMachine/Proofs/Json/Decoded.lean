import Mathlib.Data.List.Forall2
import TickMachine.Json.Decode

/-! Decoders of single values, of lists and of records give back what was put into a JSON value. -/

namespace TickMachine.Json

variable {α β γ : Type} {x : String × Json} {name : String} {names : List String}
  {members : List (String × Json)}

theorem int?_ofInt (n : Int) : (ofInt n).int? = some n := Numeral.toInt?_ofInt n

@[simp] theorem int64?_ofInt (v : Int64) : (ofInt v.toInt).int64? = some v := by
  rw [int64?, int?_ofInt, Option.bind_eq_bind, Option.bind_some, Numeric.signed64?_toInt]

@[simp] theorem uint64?_ofInt (v : UInt64) : (ofInt v.toNat).uint64? = some v := by
  rw [uint64?, int?_ofInt, Option.bind_eq_bind, Option.bind_some, Numeric.unsigned64?_toNat]

@[simp] theorem bool?_bool (b : Bool) : (bool b).bool? = some b := rfl

@[simp] theorem char?_singleton (c : Char) : (ofText (String.singleton c)).char? = some c := by
  simp [char?, ofText, text?]

theorem mapM_eq_some_iff {decode : β → Option γ} {decodes : β → γ → Prop} {xs : List β}
    {ys : List γ} (h : ∀ x ∈ xs, ∀ y, decode x = some y ↔ decodes x y) :
    xs.mapM decode = some ys ↔ List.Forall₂ decodes xs ys := by
  induction xs generalizing ys with
  | nil =>
    rw [List.mapM_nil, List.forall₂_nil_left_iff]
    exact ⟨fun h => (Option.some.inj h).symm, fun h => h ▸ rfl⟩
  | cons x xs ih =>
    rw [List.forall_mem_cons] at h
    rw [List.mapM_cons, List.forall₂_cons_left_iff, Option.bind_eq_bind, Option.bind_eq_some_iff]
    refine exists_congr fun y => ?_
    rw [Option.bind_eq_bind, Option.bind_eq_some_iff, h.1 y]
    constructor
    · rintro ⟨hx, ys', hxs, h'⟩
      exact ⟨ys', hx, (ih h.2).1 hxs, (Option.some.inj h').symm⟩
    · rintro ⟨ys', hx, hxs, rfl⟩
      exact ⟨hx, ys', (ih h.2).2 hxs, rfl⟩

theorem mapM_map_eq_some {encode : α → β} {decode : β → Option γ} {value : α → γ} {xs : List α}
    (h : ∀ x ∈ xs, decode (encode x) = some (value x)) :
    (xs.map encode).mapM decode = some (xs.map value) := by
  refine (mapM_eq_some_iff fun _ _ _ => Iff.rfl).2 ?_
  rw [List.forall₂_map_left_iff, List.forall₂_map_right_iff]
  exact List.forall₂_same.2 h

@[simp] theorem list?_map {decode : Json → Option α} {encode : α → Json} {xs : List α}
    (h : ∀ x, decode (encode x) = some x) : (array (xs.map encode)).list? decode = some xs := by
  have hxs : (xs.map encode).mapM decode = some (xs.map id) := mapM_map_eq_some fun x _ => h x
  rw [list?, hxs, List.map_id]

theorem valuesOf_eq_nil (h : name ∉ members.map Prod.fst) :
    valuesOf name (members.map fun (n, v) => (some n, v)) = [] := by
  rw [valuesOf, List.filterMap_map, List.filterMap_eq_nil_iff]
  rintro ⟨n, v⟩ hx
  have hne : n ≠ name := fun he => h (he ▸ List.mem_map_of_mem hx)
  simp [hne]

theorem valuesOf_of_mem (hnodup : (members.map Prod.fst).Nodup) (hx : x ∈ members) :
    valuesOf x.1 (members.map fun (n, v) => (some n, v)) = [x.2] := by
  induction members with
  | nil => cases hx
  | cons y members ih =>
    rw [List.map_cons, List.nodup_cons] at hnodup
    rcases List.mem_cons.1 hx with rfl | hx
    · have hrest := valuesOf_eq_nil hnodup.1
      simpa [valuesOf] using hrest
    · have hne : y.1 ≠ x.1 := fun he => hnodup.1 (he ▸ List.mem_map_of_mem hx)
      have hrest := ih hnodup.2 hx
      simpa [valuesOf, hne] using hrest

theorem fields?_record (hnames : members.map Prod.fst = names) (hnodup : names.Nodup) :
    (record members).fields? names = some (members.map fun x => some x.2) := by
  subst hnames
  have hnamed : (members.map fun (n, v) => (some n, v)).all (·.1.isSome) := by simp
  rw [record, fields?, if_pos hnamed]
  refine mapM_map_eq_some fun x hx => ?_
  rw [valuesOf_of_mem hnodup hx]

end TickMachine.Json
