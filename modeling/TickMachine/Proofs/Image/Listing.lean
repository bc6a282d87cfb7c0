import TickMachine.Image.Basic
import TickMachine.Proofs.Assembly.Reassembly

/-! What can be told from the listing of an image. The lines of a listing are its own, since no word
is shown with a line end in it, and each of them can be read back: a code line as a line of source,
and a data line up to the blank behind its value. The first line says where the data lines end. -/

namespace TickMachine

open Text Assembly

variable {w w' : Word} {address n n' : Nat} {c : Char}

theorem Word.assembly_eq_iff :
    w.assembly = w'.assembly ↔ w.opcode = w'.opcode ∧ w.args = w'.args := by
  constructor
  · intro h
    have hread : CodeLine.instruction w.opcode.mnemonic.toList (w.args.map .value) =
        .instruction w'.opcode.mnemonic.toList (w'.args.map .value) := by
      rw [← read_assembly, ← read_assembly, h]
    obtain ⟨hmnemonic, hargs⟩ := CodeLine.instruction.inj hread
    refine ⟨Opcode.mnemonic_injective (String.toList_inj.1 hmnemonic), ?_⟩
    exact (List.map_inj_right fun _ _ => Operand.value.inj).1 hargs
  · rintro ⟨hopcode, hargs⟩
    rw [assembly, assembly, hopcode, hargs]

namespace Image

/-! ### Data lines -/

theorem cellRemark_cases (v : Int64) : (cellRemark v).toList = [] ∨
    ∃ c, c ≠ '\n' ∧ (cellRemark v).toList = [' ', ' ', ';', ' ', '\'', c, '\''] := by
  rw [cellRemark]
  split
  · next h =>
    have hprintable : ∀ k < 0x7F, 0x20 ≤ k → Char.ofNat k ≠ '\n' := by decide
    exact .inr ⟨_, hprintable v.toInt.toNat (by omega) (by omega), by simp⟩
  · exact .inl rfl

def cellText (address : Nat) (cell : Word) : List Char :=
  (zeroPadded 3 address).toList ++ ':' :: ' ' :: (cell.opcode.mnemonic.toList ++
    ' ' :: ((toString cell.value.toInt).toList ++ (cellRemark cell.value).toList))

theorem toList_cellLine (address : Nat) (cell : Word) :
    (cellLine address cell).toList = cellText address cell ++ ['\n'] := by
  simp [cellLine, cellText]

theorem isPlain_ne (h : isPlain c) : c ≠ ' ' ∧ c ≠ '\n' := by
  constructor <;> rintro rfl <;> revert h <;> decide

theorem space_notMem {text : List Char} (h : IsPlainText text) : ' ' ∉ text :=
  fun hc => (isPlain_ne (h.2 _ hc)).1 rfl

theorem takeWhile_value (v : Int64) :
    ((toString v.toInt).toList ++ (cellRemark v).toList).takeWhile (· != ' ') =
      (toString v.toInt).toList := by
  have hvalue : ∀ c ∈ (toString v.toInt).toList, (c != ' ') = true := fun c hc =>
    bne_iff_ne.2 (isPlain_ne (isPlain_of_mem_toString hc)).1
  rw [List.takeWhile_append_of_pos hvalue]
  obtain hnil | ⟨c, -, hremark⟩ := cellRemark_cases v
  · rw [hnil, List.takeWhile_nil, List.append_nil]
  · rw [hremark]
    exact List.append_nil _

theorem cellText_eq_iff : cellText address w = cellText address w' ↔
    w.opcode = w'.opcode ∧ w.value = w'.value := by
  constructor
  · intro h
    have hbehind := (List.cons.inj (List.cons.inj (List.append_cancel_left h)).2).2
    obtain ⟨hmnemonic, hrest⟩ := append_cons_inj (space_notMem (mnemonic_isPlainText _))
      (space_notMem (mnemonic_isPlainText _)) hbehind
    have hvalue := congrArg (List.takeWhile (· != ' ')) hrest
    rw [takeWhile_value, takeWhile_value] at hvalue
    refine ⟨Opcode.mnemonic_injective (String.toList_inj.1 hmnemonic), ?_⟩
    exact Option.some.inj (by rw [← int64?_toString, ← int64?_toString, hvalue])
  · rintro ⟨hopcode, hvalue⟩
    rw [cellText, cellText, hopcode, hvalue]

theorem isDigit_of_mem_zeroPadded {width : Nat} (h : c ∈ (zeroPadded width n).toList) :
    c.isDigit := by
  rw [zeroPadded, String.toList_append, List.mem_append] at h
  rcases h with h | h
  · rw [fill, String.toList_ofList] at h
    rw [List.eq_of_mem_replicate h]
    decide
  · exact isDigit_of_mem_toDigits (Nat.toList_repr ▸ h)

theorem newline_notMem_address {back : List Char} (h : '\n' ∉ back) :
    '\n' ∉ (zeroPadded 3 address).toList ++ ':' :: ' ' :: back := by
  intro hc
  rcases List.mem_append.1 hc with hc | hc
  · have hdigit := isDigit_of_mem_zeroPadded hc
    revert hdigit
    decide
  · simp [h] at hc

theorem newline_notMem_cellText : '\n' ∉ cellText address w := by
  refine newline_notMem_address fun hc => ?_
  rcases List.mem_append.1 hc with hc | hc
  · exact (isPlain_ne ((mnemonic_isPlainText _).2 _ hc)).2 rfl
  · rcases List.mem_append.1 (List.mem_of_ne_of_mem (by decide) hc) with hc | hc
    · exact (isPlain_ne (isPlain_of_mem_toString hc)).2 rfl
    · obtain hnil | ⟨c, hne, hremark⟩ := cellRemark_cases w.value
      · rw [hnil] at hc
        cases hc
      · rw [hremark] at hc
        simp [hne.symm] at hc

/-! ### Code lines -/

def codeText (address : Nat) (w : Word) : List Char :=
  (zeroPadded 3 address).toList ++ ':' :: ' ' :: w.assembly.toList

theorem toList_codeLine (address : Nat) (w : Word) :
    (codeLine address w).toList = codeText address w ++ ['\n'] := by
  simp [codeLine, codeText]

theorem codeText_eq_iff : codeText address w = codeText address w' ↔
    w.opcode = w'.opcode ∧ w.args = w'.args := by
  rw [codeText, codeText, List.append_cancel_left_eq, List.cons.injEq, List.cons.injEq,
    String.toList_inj, Word.assembly_eq_iff]
  simp

theorem newline_notMem_codeText : '\n' ∉ codeText address w := by
  refine newline_notMem_address fun hc => ?_
  have hchar := mem_assembly hc
  revert hchar
  decide

/-! ### The whole listing -/

def dataHeader (count : Nat) : List Char :=
  "; data segment (".toList ++ ((toString count).toList ++ " cells)".toList)

def codeHeader (count : Nat) : List Char :=
  "; code segment (".toList ++ ((toString count).toList ++ " instructions)".toList)

def listingLines (image : Image) : List (List Char) :=
  dataHeader image.data.length :: (image.data.mapIdx cellText ++
    [] :: codeHeader image.code.length :: image.code.mapIdx codeText)

theorem dataHeader_inj (h : dataHeader n = dataHeader n') : n = n' := by
  have hnumber : n.repr.toList = n'.repr.toList :=
    List.append_cancel_right (List.append_cancel_left h)
  rw [Nat.toList_repr, Nat.toList_repr] at hnumber
  exact Option.some.inj (by rw [← digits?_toDigits, ← digits?_toDigits, hnumber])

theorem toList_join_mapIdx {f : Nat → Word → String} {g : Nat → Word → List Char}
    (h : ∀ i w, (f i w).toList = g i w ++ ['\n']) (ws : List Word) :
    (String.join (ws.mapIdx f)).toList = (ws.mapIdx g).flatMap (· ++ ['\n']) := by
  have hmap : (ws.mapIdx f).map String.toList = (ws.mapIdx g).map (· ++ ['\n']) :=
    List.ext_getElem (by simp) (by simp [h])
  rw [String.toList_join, List.flatMap_def, List.flatMap_def, hmap]

theorem toList_listing (image : Image) :
    image.listing.toList = (listingLines image).flatMap (· ++ ['\n']) := by
  have hdata := toList_join_mapIdx toList_cellLine image.data
  have hcode := toList_join_mapIdx toList_codeLine image.code
  unfold listing listingLines dataHeader codeHeader
  simp only [String.toList_append, hdata, hcode, List.flatMap_cons, List.flatMap_append,
    List.append_assoc]
  rfl

theorem newline_notMem_header {front back : List Char} (hfront : '\n' ∉ front)
    (hback : '\n' ∉ back) : '\n' ∉ front ++ ((toString n).toList ++ back) := by
  intro hc
  rcases List.mem_append.1 hc with hc | hc
  · exact hfront hc
  · rcases List.mem_append.1 hc with hc | hc
    · have hdigit : Char.isDigit '\n' := isDigit_of_mem_toDigits (n := n) (Nat.toList_repr ▸ hc)
      revert hdigit
      decide
    · exact hback hc

theorem newline_notMem_listingLines (image : Image) :
    ∀ text ∈ listingLines image, '\n' ∉ text := by
  refine List.forall_mem_cons.2 ⟨newline_notMem_header (by decide) (by decide), ?_⟩
  refine List.forall_mem_append.2 ⟨fun text ht => ?_, List.forall_mem_cons.2 ⟨List.not_mem_nil, ?_⟩⟩
  · obtain ⟨i, hi, rfl⟩ := List.mem_mapIdx.1 ht
    exact newline_notMem_cellText
  · refine List.forall_mem_cons.2 ⟨newline_notMem_header (by decide) (by decide), fun text ht => ?_⟩
    obtain ⟨i, hi, rfl⟩ := List.mem_mapIdx.1 ht
    exact newline_notMem_codeText

theorem listingLines_inj {image image' : Image} (h : image.listing = image'.listing) :
    listingLines image = listingLines image' := by
  have hlines (image : Image) : lines image.listing.toList = listingLines image ++ [[]] := by
    rw [toList_listing, flatMap_eq_intercalate]
    refine lines_intercalate (by simp) (List.forall_mem_append.2
      ⟨newline_notMem_listingLines image, List.forall_mem_singleton.2 List.not_mem_nil⟩)
  have hboth := hlines image
  rw [h, hlines image'] at hboth
  exact (List.append_cancel_right hboth).symm

theorem mapIdx_eq_iff {α β γ : Type} {f : Nat → α → β} {g : α → γ} {l l' : List α}
    (h : ∀ i a b, f i a = f i b ↔ g a = g b) : l.mapIdx f = l'.mapIdx f ↔ l.map g = l'.map g := by
  induction l generalizing f l' with
  | nil => cases l' <;> simp
  | cons a l ih =>
    cases l' with
    | nil => simp
    | cons b l' =>
      have hrest : l.mapIdx (fun i => f (i + 1)) = l'.mapIdx (fun i => f (i + 1)) ↔
          l.map g = l'.map g := ih fun i => h (i + 1)
      rw [List.mapIdx_cons, List.mapIdx_cons, List.map_cons, List.map_cons, List.cons.injEq,
        List.cons.injEq, h, hrest]

/-- Two images have the same listing if and only if their cells have the same tags and values and
their instructions the same opcodes and arguments, as many of each. -/
theorem listing_eq_iff (image image' : Image) : image.listing = image'.listing ↔
    (image.data.map fun w => (w.opcode, w.value)) =
      (image'.data.map fun w => (w.opcode, w.value)) ∧
    (image.code.map fun w => (w.opcode, w.args)) =
      (image'.code.map fun w => (w.opcode, w.args)) := by
  have hdata : image.data.mapIdx cellText = image'.data.mapIdx cellText ↔ _ :=
    mapIdx_eq_iff (g := fun w => (w.opcode, w.value)) fun i w w' => by
      rw [cellText_eq_iff, Prod.mk.injEq]
  have hcode : image.code.mapIdx codeText = image'.code.mapIdx codeText ↔ _ :=
    mapIdx_eq_iff (g := fun w => (w.opcode, w.args)) fun i w w' => by
      rw [codeText_eq_iff, Prod.mk.injEq]
  rw [← hdata, ← hcode]
  constructor
  · intro h
    obtain ⟨hcount, hrest⟩ := List.cons.inj (listingLines_inj h)
    have hlength := dataHeader_inj hcount
    obtain ⟨hcells, hbehind⟩ := List.append_inj hrest (by simpa using hlength)
    exact ⟨hcells, (List.cons.inj (List.cons.inj hbehind).2).2⟩
  · rintro ⟨hcells, hwords⟩
    have hcount : image.data.length = image'.data.length := by
      simpa using congrArg List.length hcells
    have hcount' : image.code.length = image'.code.length := by
      simpa using congrArg List.length hwords
    rw [← String.toList_inj, toList_listing, toList_listing, listingLines, listingLines, hcells,
      hwords, hcount, hcount']

end Image
end TickMachine
