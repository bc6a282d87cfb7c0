import TickMachine.Isa.Stored
import TickMachine.Proofs.Json.Parsed

/-! The forms in which a word may stand in a JSON text. The decoder takes these and no others. -/

namespace TickMachine

open Json

namespace Opcode

inductive StoredAs : Opcode → Json → Prop
  | text (op : Opcode) : StoredAs op (.ofText op.mnemonic)
  | record (op : Opcode) : StoredAs op (.record [(op.mnemonic, .null)])

theorem ofExact?_eq_some_iff {text : String} {op : Opcode} :
    ofExact? text = some op ↔ text = op.mnemonic := by
  refine ⟨fun h => ?_, fun h => h ▸ ofExact?_mnemonic op⟩
  have hfound := List.find?_some h
  exact (eq_of_beq hfound).symm

theorem ofJson?_eq_some_iff {v : Json} {op : Opcode} : ofJson? v = some op ↔ op.StoredAs v := by
  constructor
  · intro h
    unfold ofJson? at h
    split at h
    · obtain rfl := ofExact?_eq_some_iff.1 h
      exact .text op
    · obtain rfl := ofExact?_eq_some_iff.1 h
      exact .record op
    · cases h
  · rintro (_ | _)
    · exact ofExact?_mnemonic op
    · exact ofExact?_mnemonic op

end Opcode

namespace Word

/-- The index, the opcode and the arguments, if there are any. In an object they are found by name,
whatever else it holds, and in an array by their order. -/
inductive HasFields : Json → Json → Json → Option Json → Prop
  | object {members : List (Option String × Json)} {index opcode : Json} {args : Option Json}
      (hnames : ∀ x ∈ members, x.1.isSome) (hindex : valuesOf "index" members = [index])
      (hopcode : valuesOf "opcode" members = [opcode])
      (hargs : valuesOf "args" members = args.toList) :
      HasFields (.object members) index opcode args
  | array (index opcode : Json) (args : Option Json) :
      HasFields (.array (index :: opcode :: args.toList)) index opcode args

inductive ArgsStoredAs : List Int64 → Option Json → Prop
  | missing : ArgsStoredAs [] none
  | list (args : List Int64) : ArgsStoredAs args (some (.array (args.map fun a => .ofInt a.toInt)))

def StoredAs (w : Word) (v : Json) : Prop :=
  ∃ opcode args, HasFields v (.ofInt w.index.toNat) opcode args ∧ w.opcode.StoredAs opcode ∧
    ArgsStoredAs w.args args

variable {v index opcode : Json} {args : Option Json} {w : Word}
  {members : List (Option String × Json)}

theorem fields?_object (h : ∀ x ∈ members, x.1.isSome) :
    (object members).fields? fieldNames = some [some index, some opcode, args] ↔
      valuesOf "index" members = [index] ∧ valuesOf "opcode" members = [opcode] ∧
        valuesOf "args" members = args.toList := by
  have hall : List.Forall₂ (fun name v => valuesOf name members = v.toList) fieldNames
      [some index, some opcode, args] ↔ valuesOf "index" members = [index] ∧
        valuesOf "opcode" members = [opcode] ∧ valuesOf "args" members = args.toList := by
    simp [fieldNames]
  rw [fields?, if_pos (List.all_eq_true.2 h), ← hall]
  refine mapM_eq_some_iff fun name _ v => ?_
  generalize valuesOf name members = vs
  rcases vs with _ | ⟨v₁, _ | ⟨v₂, vs⟩⟩ <;> cases v <;> simp

theorem fields?_eq_some_iff : v.fields? fieldNames = some [some index, some opcode, args] ↔
    HasFields v index opcode args := by
  constructor
  · intro h
    cases v with
    | object members =>
      have hnames : ∀ x ∈ members, x.1.isSome := by
        rw [fields?] at h
        split at h
        · next hall => exact List.all_eq_true.1 hall
        · cases h
      obtain ⟨hindex, hopcode, hargs⟩ := (fields?_object hnames).1 h
      exact .object hnames hindex hopcode hargs
    | array elements =>
      rcases elements with _ | ⟨e₁, _ | ⟨e₂, _ | ⟨e₃, _ | ⟨e₄, elements⟩⟩⟩⟩
      · simp [fields?, fieldNames] at h
      · simp [fields?, fieldNames] at h
      · cases h
        exact .array _ _ none
      · cases h
        exact .array _ _ (some e₃)
      · simp [fields?, fieldNames] at h
    | null | bool b | number n | string text => cases h
  · rintro (⟨hnames, hindex, hopcode, hargs⟩ | _)
    · exact (fields?_object hnames).2 ⟨hindex, hopcode, hargs⟩
    · cases args <;> rfl

theorem mem_of_valuesOf {name : String} (h : v ∈ valuesOf name members) :
    ∃ x ∈ members, x.2 = v := by
  obtain ⟨⟨_, _⟩, hx, hv⟩ := List.mem_filterMap.1 h
  dsimp only at hv
  split at hv
  · obtain rfl := Option.some.inj hv
    exact ⟨_, hx, rfl⟩
  · cases hv

theorem HasFields.isProper (h : HasFields v index opcode args) (hv : v.IsProper) :
    index.IsProper ∧ ∀ a ∈ args, a.IsProper := by
  cases h with
  | @object members _ _ _ hnames hindex hopcode hargs =>
    have hvalue {name : String} {field : Json} (h : field ∈ valuesOf name members) :
        field.IsProper := by
      obtain ⟨x, hx, rfl⟩ := mem_of_valuesOf h
      exact hv.member hx
    have hall : ∀ a ∈ valuesOf "args" members, a.IsProper := fun _ => hvalue
    rw [hargs] at hall
    exact ⟨hvalue (hindex ▸ List.mem_singleton_self _), fun a ha => hall a (Option.mem_toList.2 ha)⟩
  | array =>
    refine ⟨hv.element (List.mem_cons_self ..), fun a ha => hv.element ?_⟩
    exact List.mem_cons_of_mem _ (List.mem_cons_of_mem _ (Option.mem_toList.2 ha))

def argsOf? : Option Json → Option (List Int64)
  | none => some []
  | some args => args.list? int64?

theorem argsOf?_eq_some_iff {ks : List Int64} (hargs : ∀ a ∈ args, a.IsProper) :
    argsOf? args = some ks ↔ ArgsStoredAs ks args := by
  cases args with
  | none =>
    constructor
    · intro h
      obtain rfl := Option.some.inj h
      exact .missing
    · rintro ⟨⟩
      rfl
  | some a =>
    rw [argsOf?, integers_eq_some_iff (hargs a rfl)]
    constructor
    · rintro rfl
      exact .list ks
    · rintro ⟨⟩
      rfl

theorem ofFields_eq_some_iff : (do return {
      index := ← index.uint64?
      opcode := ← Opcode.ofJson? opcode
      args := ← match args with
        | none => some []
        | some args => args.list? int64? }) = some w ↔
    index.uint64? = some w.index ∧ Opcode.ofJson? opcode = some w.opcode ∧
      argsOf? args = some w.args := by
  obtain ⟨i, op, ks⟩ := w
  constructor
  · intro h
    obtain ⟨_, hi, h⟩ := Option.bind_eq_some_iff.1 h
    obtain ⟨_, hop, h⟩ := Option.bind_eq_some_iff.1 h
    cases args with
    | none =>
      cases h
      exact ⟨hi, hop, rfl⟩
    | some args =>
      obtain ⟨_, hks, h⟩ := Option.bind_eq_some_iff.1 h
      cases h
      exact ⟨hi, hop, hks⟩
  · rintro ⟨hi, hop, hks⟩
    refine Option.bind_eq_some_iff.2 ⟨i, hi, Option.bind_eq_some_iff.2 ⟨op, hop, ?_⟩⟩
    cases args with
    | none =>
      cases hks
      rfl
    | some args => exact Option.bind_eq_some_iff.2 ⟨ks, hks, rfl⟩

theorem ofJson?_eq_some_iff_hasFields : ofJson? v = some w ↔
    ∃ index opcode args, HasFields v index opcode args ∧ index.uint64? = some w.index ∧
      Opcode.ofJson? opcode = some w.opcode ∧ argsOf? args = some w.args := by
  rw [ofJson?, Option.bind_eq_bind, Option.bind_eq_some_iff]
  constructor
  · rintro ⟨fields, hfields, h⟩
    split at h
    · next index opcode args =>
      exact ⟨index, opcode, args, fields?_eq_some_iff.1 hfields, ofFields_eq_some_iff.1 h⟩
    · cases h
  · rintro ⟨index, opcode, args, hall, h⟩
    exact ⟨_, fields?_eq_some_iff.2 hall, ofFields_eq_some_iff.2 h⟩

theorem ofJson?_eq_some_iff (hv : v.IsProper) : ofJson? v = some w ↔ w.StoredAs v := by
  rw [ofJson?_eq_some_iff_hasFields]
  constructor
  · rintro ⟨index, opcode, args, hall, hindex, hopcode, hargs⟩
    obtain ⟨hproper, hargsProper⟩ := hall.isProper hv
    obtain rfl := (uint64?_eq_some_iff hproper).1 hindex
    exact ⟨opcode, args, hall, Opcode.ofJson?_eq_some_iff.1 hopcode,
      (argsOf?_eq_some_iff hargsProper).1 hargs⟩
  · rintro ⟨opcode, args, hall, hopcode, hargs⟩
    obtain ⟨hproper, hargsProper⟩ := hall.isProper hv
    exact ⟨_, opcode, args, hall, (uint64?_eq_some_iff hproper).2 rfl,
      Opcode.ofJson?_eq_some_iff.2 hopcode, (argsOf?_eq_some_iff hargsProper).2 hargs⟩

theorem StoredAs.uint64?_eq_none (h : w.StoredAs v) : v.uint64? = none := by
  obtain ⟨_, _, ⟨_, _, _, _⟩ | _, -⟩ := h
  · rfl
  · rfl

end Word
end TickMachine
