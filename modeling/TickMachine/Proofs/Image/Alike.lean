import TickMachine.Proofs.Image.Format

/-! Stored images that differ in form only. An image depends on the tokens of its text, and on a
word for its fields, so neither blanks nor the order of members nor members with other names play a
part, as long as these can be read at all. -/

namespace TickMachine

open Json

namespace Json

variable {n : Nat} {elements : List Json} {members : List (Option String × Json)} {name : String}

/-- Whether a value can be read inside of `n` containers. -/
def FitsIn (n : Nat) (v : Json) : Prop := v.isReadable ∧ v.depth + n ≤ maxDepth

theorem haveReadable_iff :
    haveReadable members ↔ ∀ x ∈ members, x.1.isSome ∧ x.2.isReadable := by
  induction members with
  | nil => simp [haveReadable]
  | cons x members ih => simp [haveReadable, ih, and_assoc]

theorem depthMembers_le_iff : depthMembers members ≤ n ↔ ∀ x ∈ members, x.2.depth ≤ n := by
  induction members with
  | nil => simp [depthMembers]
  | cons x members ih => rw [depthMembers, Nat.max_le, ih, List.forall_mem_cons]

theorem fitsIn_array_iff (hn : n < maxDepth) :
    FitsIn n (.array elements) ↔ ∀ v ∈ elements, FitsIn (n + 1) v := by
  have hdepth (k : Nat) : k + 1 + n ≤ maxDepth ↔ k ≤ maxDepth - (n + 1) := by omega
  have hone (k : Nat) : k + (n + 1) ≤ maxDepth ↔ k ≤ maxDepth - (n + 1) := by omega
  simp only [FitsIn, isReadable, depth, hdepth, hone, areReadable_iff, depthElements_le_iff,
    forall_and]

theorem fitsIn_object_iff (hn : n < maxDepth) :
    FitsIn n (.object members) ↔ ∀ x ∈ members, x.1.isSome ∧ FitsIn (n + 1) x.2 := by
  have hdepth (k : Nat) : k + 1 + n ≤ maxDepth ↔ k ≤ maxDepth - (n + 1) := by omega
  have hone (k : Nat) : k + (n + 1) ≤ maxDepth ↔ k ≤ maxDepth - (n + 1) := by omega
  simp only [FitsIn, isReadable, depth, hdepth, hone, haveReadable_iff, depthMembers_le_iff,
    forall_and, and_assoc]

theorem isPortable_iff {v : Json} : v.isPortable ↔ FitsIn 0 v := by
  simp [isPortable, FitsIn]

theorem toList_eq_toList_iff {a b : Option Json} : a.toList = b.toList ↔ a = b := by
  cases a <;> cases b <;> simp

theorem valuesOf_cons (key : String) (v : Json) : valuesOf name ((some key, v) :: members) =
    if key = name then v :: valuesOf name members else valuesOf name members := by
  rw [valuesOf, List.filterMap_cons]
  by_cases h : key = name
  · simp [h, valuesOf]
  · simp [h, valuesOf]

end Json

namespace Word

inductive SameForm : Json → Json → Prop
  | refl (v : Json) : SameForm v v
  | symm {v v' : Json} (h : SameForm v v') : SameForm v' v
  | trans {v v' v'' : Json} (h : SameForm v v') (h' : SameForm v' v'') : SameForm v v''
  | order {members members' : List (Option String × Json)} (h : members.Perm members') :
      SameForm (.object members) (.object members')
  | unknown {members : List (Option String × Json)} {name : String} {v : Json}
      (hname : name ∉ fieldNames) (hfits : v.FitsIn 2) :
      SameForm (.object members) (.object ((some name, v) :: members))
  | noArgs {members : List (Option String × Json)} (h : valuesOf "args" members = []) :
      SameForm (.object members) (.object ((some "args", .array []) :: members))
  | opcode (name : String) (members : List (Option String × Json)) :
      SameForm (.object ((some "opcode", .ofText name) :: members))
        (.object ((some "opcode", .record [(name, .null)]) :: members))
  | fields (index opcode : Json) (args : Option Json) :
      SameForm (.array (index :: opcode :: args.toList))
        (.record ([("index", index), ("opcode", opcode)] ++ args.toList.map ("args", ·)))

structure Alike (v v' : Json) : Prop where
  uint64 : v.uint64? = v'.uint64?
  word : ofJson? v = ofJson? v'
  fits : v.FitsIn 1 ↔ v'.FitsIn 1

variable {v v' v'' index opcode : Json} {args : Option Json} {name : String}
  {members members' : List (Option String × Json)}

namespace Alike

theorem refl (v : Json) : Alike v v := ⟨rfl, rfl, Iff.rfl⟩

theorem symm (h : Alike v v') : Alike v' v :=
  ⟨h.uint64.symm, h.word.symm, h.fits.symm⟩

theorem trans (h : Alike v v') (h' : Alike v' v'') : Alike v v'' :=
  ⟨h.uint64.trans h'.uint64, h.word.trans h'.word, h.fits.trans h'.fits⟩

end Alike

theorem ofJson?_congr (h : ∀ index opcode args,
    HasFields v index opcode args ↔ HasFields v' index opcode args) : ofJson? v = ofJson? v' := by
  ext w
  rw [ofJson?_eq_some_iff_hasFields, ofJson?_eq_some_iff_hasFields]
  simp only [h]

theorem hasFields_object_iff : HasFields (.object members) index opcode args ↔
    (∀ x ∈ members, x.1.isSome) ∧ valuesOf "index" members = [index] ∧
      valuesOf "opcode" members = [opcode] ∧ valuesOf "args" members = args.toList := by
  constructor
  · rintro ⟨hnames, hindex, hopcode, hargs⟩
    exact ⟨hnames, hindex, hopcode, hargs⟩
  · exact fun ⟨hnames, hindex, hopcode, hargs⟩ => .object hnames hindex hopcode hargs

theorem hasFields_array_iff {index' opcode' : Json} {args' : Option Json} :
    HasFields (.array (index :: opcode :: args.toList)) index' opcode' args' ↔
      index = index' ∧ opcode = opcode' ∧ args = args' := by
  rw [← fields?_eq_some_iff]
  cases args <;> simp [fields?, fieldNames]

theorem valuesOf_perm (name : String) (h : members.Perm members') (a : Option Json) :
    valuesOf name members = a.toList ↔ valuesOf name members' = a.toList := by
  have hperm : (valuesOf name members).Perm (valuesOf name members') := h.filterMap _
  constructor
  · intro ha
    rw [ha] at hperm
    cases a with
    | none => exact List.nil_perm.1 hperm
    | some v => exact List.singleton_perm.1 hperm |>.symm
  · intro ha
    rw [ha] at hperm
    cases a with
    | none => exact List.perm_nil.1 hperm
    | some v => exact List.perm_singleton.1 hperm

theorem alike_order (h : members.Perm members') : Alike (.object members) (.object members') where
  uint64 := rfl
  word := by
    refine ofJson?_congr fun index opcode args => ?_
    rw [hasFields_object_iff, hasFields_object_iff]
    have hindex := valuesOf_perm "index" h (some index)
    have hopcode := valuesOf_perm "opcode" h (some opcode)
    have hargs := valuesOf_perm "args" h args
    simp only [Option.toList_some] at hindex hopcode
    simp only [hindex, hopcode, hargs, h.mem_iff]
  fits := by
    rw [fitsIn_object_iff (by decide), fitsIn_object_iff (by decide)]
    simp only [h.mem_iff]

theorem alike_unknown {v : Json} (hname : name ∉ fieldNames) (hfits : v.FitsIn 2) :
    Alike (.object members) (.object ((some name, v) :: members)) where
  uint64 := rfl
  word := by
    simp only [fieldNames, List.mem_cons, List.not_mem_nil, or_false, not_or] at hname
    refine ofJson?_congr fun index opcode args => ?_
    simp only [hasFields_object_iff, valuesOf_cons, hname, if_false, List.forall_mem_cons,
      Option.isSome_some, true_and]
  fits := by
    rw [fitsIn_object_iff (by decide), fitsIn_object_iff (by decide), List.forall_mem_cons]
    exact ⟨fun h => ⟨⟨rfl, hfits⟩, h⟩, fun h => h.2⟩

theorem alike_noArgs (h : valuesOf "args" members = []) :
    Alike (.object members) (.object ((some "args", .array []) :: members)) where
  uint64 := rfl
  word := by
    ext w
    simp only [ofJson?_eq_some_iff_hasFields, hasFields_object_iff, valuesOf_cons, h]
    constructor
    · rintro ⟨index, opcode, args, ⟨hnames, hindex, hopcode, hargs⟩, hdecoded⟩
      obtain rfl := Option.toList_eq_nil_iff.1 hargs.symm
      refine ⟨index, opcode, some (.array []), ⟨?_, ?_, ?_, ?_⟩, hdecoded⟩
      · exact List.forall_mem_cons.2 ⟨rfl, hnames⟩
      · simpa using hindex
      · simpa using hopcode
      · rfl
    · rintro ⟨index, opcode, args, ⟨hnames, hindex, hopcode, hargs⟩, hdecoded⟩
      obtain rfl : some (.array []) = args := toList_eq_toList_iff.1 hargs
      refine ⟨index, opcode, none, ⟨(List.forall_mem_cons.1 hnames).2, ?_, ?_, rfl⟩, hdecoded⟩
      · simpa using hindex
      · simpa using hopcode
  fits := by
    rw [fitsIn_object_iff (by decide), fitsIn_object_iff (by decide), List.forall_mem_cons]
    exact ⟨fun h => ⟨⟨rfl, rfl, by decide⟩, h⟩, fun h => h.2⟩

theorem ofJson?_opcode {w : Word} (h : Opcode.ofJson? v = Opcode.ofJson? v')
    (hw : ofJson? (.object ((some "opcode", v) :: members)) = some w) :
    ofJson? (.object ((some "opcode", v') :: members)) = some w := by
  simp only [ofJson?_eq_some_iff_hasFields, hasFields_object_iff, valuesOf_cons] at hw ⊢
  obtain ⟨index, opcode, args, ⟨hnames, hindex, hopcode, hargs⟩, huint, hop, hdecoded⟩ := hw
  obtain ⟨rfl, hnone⟩ := List.cons.inj hopcode
  rw [h] at hop
  refine ⟨index, v', args, ⟨?_, hindex, ?_, hargs⟩, huint, hop, hdecoded⟩
  · exact List.forall_mem_cons.2 ⟨rfl, (List.forall_mem_cons.1 hnames).2⟩
  · rw [if_pos trivial, hnone]

theorem alike_opcode (name : String) (members : List (Option String × Json)) :
    Alike (.object ((some "opcode", .ofText name) :: members))
      (.object ((some "opcode", .record [(name, .null)]) :: members)) where
  uint64 := rfl
  word := by
    have hopcode : Opcode.ofJson? (.ofText name) = Opcode.ofJson? (.record [(name, .null)]) := rfl
    ext w
    exact ⟨ofJson?_opcode hopcode, ofJson?_opcode hopcode.symm⟩
  fits := by
    have htext : FitsIn 2 (.ofText name) := ⟨rfl, Nat.le_add_left 2 125⟩
    have hrecord : FitsIn 2 (.record [(name, .null)]) := ⟨rfl, Nat.le_add_left 3 124⟩
    rw [fitsIn_object_iff (by decide), fitsIn_object_iff (by decide), List.forall_mem_cons,
      List.forall_mem_cons]
    exact and_congr_left fun _ => ⟨fun _ => ⟨rfl, hrecord⟩, fun _ => ⟨rfl, htext⟩⟩

theorem alike_fields (index opcode : Json) (args : Option Json) :
    Alike (.array (index :: opcode :: args.toList))
      (.record ([("index", index), ("opcode", opcode)] ++ args.toList.map ("args", ·))) where
  uint64 := rfl
  word := by
    refine ofJson?_congr fun index' opcode' args' => ?_
    rw [hasFields_array_iff, record, hasFields_object_iff, ← toList_eq_toList_iff]
    cases args <;> simp [valuesOf]
  fits := by
    rw [record, fitsIn_array_iff (by decide), fitsIn_object_iff (by decide)]
    cases args <;> simp

theorem SameForm.alike (h : SameForm v v') : Alike v v' := by
  induction h with
  | refl v => exact .refl v
  | symm _ ih => exact ih.symm
  | trans _ _ ih ih' => exact ih.trans ih'
  | order h => exact alike_order h
  | unknown hname hfits => exact alike_unknown hname hfits
  | noArgs h => exact alike_noArgs h
  | opcode name members => exact alike_opcode name members
  | fields index opcode args => exact alike_fields index opcode args

end Word

namespace Image

open Word (SameForm)

variable {text text' : List Char} {toks : List Token} {elements elements' : List Json}
  {image : Image}

theorem read_eq_of_tokens (h : Lexed text toks) (h' : Lexed text' toks) :
    read text = read text' := by
  have htoks := tokens?_eq_some_iff.2 h
  rw [← tokens?_eq_some_iff.2 h'] at htoks
  rw [read, read, entries?, entries?, Json.read?, Json.read?, htoks]

theorem mapM_entryOf?_congr (h : List.Forall₂ SameForm elements elements') :
    elements.mapM entryOf? = elements'.mapM entryOf? := by
  induction h with
  | nil => rfl
  | cons hv _ ih =>
    have halike := hv.alike
    rw [List.mapM_cons, List.mapM_cons, ih, entryOf?, entryOf?, halike.uint64, halike.word]

theorem isPortable_congr (h : List.Forall₂ SameForm elements elements') :
    (Json.array elements).isPortable = (Json.array elements').isPortable := by
  rw [Bool.eq_iff_iff, isPortable_iff, isPortable_iff, fitsIn_array_iff (by decide),
    fitsIn_array_iff (by decide)]
  induction h with
  | nil => rfl
  | cons hv _ ih => rw [List.forall_mem_cons, List.forall_mem_cons, hv.alike.fits, ih]

theorem read_eq_of_forms (hlexed : Lexed text (Json.array elements).tokens)
    (hlexed' : Lexed text' (Json.array elements').tokens)
    (h : List.Forall₂ SameForm elements elements') : read text = read text' := by
  rw [read, read, entries?, entries?, read?_eq_some_iff.2 hlexed, read?_eq_some_iff.2 hlexed']
  simp only [Option.bind_eq_bind, Option.bind_some, isPortable_congr h, list?,
    mapM_entryOf?_congr h]

theorem read_eq_ok_iff : read text = .ok image ↔
    ∃ n, Lists text (.length n :: (image.data ++ image.code).map .word) ∧
      n.toNat = image.data.length ∧ (∀ w ∈ image.data, w.IsCell) ∧
      ∀ w ∈ image.code, w.opcode.isData = false := by
  rw [read_eq_iff]
  constructor
  · rintro (⟨entries, hlists, hverdict⟩ | ⟨-, h⟩)
    · cases hverdict with
      | accepted hn hdata hcode => exact ⟨_, hlists, hn, hdata, hcode⟩
    · cases h
  · rintro ⟨n, hlists, hn, hdata, hcode⟩
    exact .inl ⟨_, hlists, .accepted hn hdata hcode⟩

/-- The format of stored images, what is wrong with a text that does not have it, and what the
result does not depend on. -/
theorem read_format :
    (∀ text image, read text = .ok image ↔
      ∃ n, Lists text (.length n :: (image.data ++ image.code).map .word) ∧
        n.toNat = image.data.length ∧ (∀ w ∈ image.data, w.IsCell) ∧
        ∀ w ∈ image.code, w.opcode.isData = false) ∧
    (∀ text r, read text = r ↔ (∃ entries, Lists text entries ∧ Verdict entries r) ∨
      (∀ entries, ¬ Lists text entries) ∧ r = .error .malformed) ∧
    (∀ {text text' : List Char} {toks : List Token}, Lexed text toks → Lexed text' toks →
      read text = read text') ∧
    ∀ {text text' : List Char} {elements elements' : List Json},
      Lexed text (Json.array elements).tokens → Lexed text' (Json.array elements').tokens →
      List.Forall₂ SameForm elements elements' → read text = read text' :=
  ⟨fun _ _ => read_eq_ok_iff, fun _ _ => read_eq_iff, read_eq_of_tokens, read_eq_of_forms⟩

theorem read_format_forms :
    let text := "[1,\x7b\"index\":0,\"opcode\":\"number\",\"args\":[5]\x7d," ++
      "\x7b\"index\":1,\"opcode\":\"hlt\"\x7d]"
    let text' := "[1, \x7b\"x\":-0.5e1,\"args\":[5],\"opcode\":\"number\",\"index\":0\x7d," ++
      "[1,\"hlt\",[]]]"
    read text.toList = .ok ⟨[⟨0, .number, [5]⟩], [⟨1, .hlt, []⟩]⟩ ∧
      read text'.toList = read text.toList := by
  intro text text'
  let index (n : Nat) : String × Json := ("index", .ofInt n)
  let opcode (name : String) : String × Json := ("opcode", .ofText name)
  let args (elements : List Json) : String × Json := ("args", .array elements)
  let other : String × Json := ("x", .number ⟨true, ['0'], ['5'], some 1⟩)
  have hcell : SameForm (.record [index 0, opcode "number", args [.ofInt 5]])
      (.record [other, args [.ofInt 5], opcode "number", index 0]) :=
    (SameForm.order (List.reverse_perm _).symm).trans (.unknown (by decide) ⟨rfl, by decide⟩)
  have hcode : SameForm (.record [index 1, opcode "hlt"])
      (.array [.ofInt 1, .ofText "hlt", .array []]) :=
    ((SameForm.noArgs rfl).trans (.order (List.perm_append_singleton _ _).symm)).trans
      (SameForm.fields _ _ (some _)).symm
  have hlexed : Lexed text.toList (Json.array [.ofInt 1,
      .record [index 0, opcode "number", args [.ofInt 5]],
      .record [index 1, opcode "hlt"]]).tokens :=
    tokens?_eq_some_iff.1 (by decide +kernel)
  have hlexed' : Lexed text'.toList (Json.array [.ofInt 1,
      .record [other, args [.ofInt 5], opcode "number", index 0],
      .array [.ofInt 1, .ofText "hlt", .array []]]).tokens :=
    tokens?_eq_some_iff.1 (by decide +kernel)
  refine ⟨by decide +kernel, ?_⟩
  exact (read_format.2.2.2 hlexed hlexed' (.cons (.refl _) (.cons hcell (.cons hcode .nil)))).symm

end Image
end TickMachine
