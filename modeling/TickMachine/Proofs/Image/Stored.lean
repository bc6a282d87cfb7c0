import TickMachine.Image.Stored
import TickMachine.Proofs.Assembly.Cells
import TickMachine.Proofs.Isa.Stored

/-! Stored images. Reading undoes writing for every image, and the check that reading ends with is
the only thing that can go wrong, so a stored image that is refused is refused for the fault that
the check finds. -/

namespace TickMachine

open Json

variable {elements : List Json} {w : Word} {ws : List Word} {image : Image}

namespace Json

theorem areReadable_iff : areReadable elements ↔ ∀ v ∈ elements, v.isReadable := by
  induction elements with
  | nil => simp [areReadable]
  | cons v elements ih => simp [areReadable, ih]

theorem depthElements_le_iff {n : Nat} :
    depthElements elements ≤ n ↔ ∀ v ∈ elements, v.depth ≤ n := by
  induction elements with
  | nil => simp [depthElements]
  | cons v elements ih => rw [depthElements, Nat.max_le, ih, List.forall_mem_cons]

theorem isReadable_ofInt {n : Int} (h : n.natAbs < UInt64.size) : (ofInt n).isReadable :=
  Numeral.isFinite_ofInt h

end Json

namespace Word

theorem isReadable_toJson (w : Word) : w.toJson.isReadable := by
  have hindex : (ofInt w.index.toNat).isReadable := isReadable_ofInt w.index.toNat_lt_size
  have hargs : areReadable (w.args.map fun a => ofInt a.toInt) := by
    refine areReadable_iff.2 (List.forall_mem_map.2 fun a _ => isReadable_ofInt ?_)
    have hlow := a.le_toInt
    have hhigh := a.toInt_lt
    have hsize : UInt64.size = 18446744073709551616 := rfl
    omega
  simp [toJson, record, isReadable, haveReadable, Opcode.toJson, ofText, hindex, hargs]

theorem depth_toJson (w : Word) : w.toJson.depth ≤ 2 := by
  have hargs : depthElements (w.args.map fun a => ofInt a.toInt) ≤ 0 :=
    depthElements_le_iff.2 (List.forall_mem_map.2 fun a _ => Nat.le_refl 0)
  simp [toJson, record, depth, depthMembers, Opcode.toJson, ofText, ofInt] at hargs ⊢
  omega

end Word

namespace Image

def entries (image : Image) : List Json :=
  .ofInt image.data.length :: (image.data ++ image.code).map Word.toJson

def toJson (image : Image) : Json := .array image.entries

theorem isSimple_entries (image : Image) : ∀ v ∈ image.entries, v.IsSimple :=
  List.forall_mem_cons.2 ⟨.ofInt _, List.forall_mem_map.2 fun w _ => w.isSimple_toJson⟩

theorem yields_image (image : Image) : Yields image.write image.toJson.tokens := by
  have hblanks (text : List Char) (toks : List Token) (h : Yields text toks) :
      Yields (['\n', ' '] ++ text) toks := (h.blank fun _ => rfl).blank fun _ => rfl
  have hentries := yields_intercalate hblanks fun v hv => yields_write (image.isSimple_entries v hv)
  rw [toJson, tokens, elementTokens_eq]
  rw [entries, List.map_cons, List.map_map] at hentries
  exact yields_array hentries

theorem isPortable_toJson (h : image.data.length < UInt64.size) : image.toJson.isPortable := by
  have hreadable : image.toJson.isReadable := by
    refine areReadable_iff.2 (List.forall_mem_cons.2 ⟨isReadable_ofInt h, ?_⟩)
    exact List.forall_mem_map.2 fun w _ => w.isReadable_toJson
  have hdepth : image.toJson.depth ≤ maxDepth := by
    refine Nat.le_trans (Nat.succ_le_succ (depthElements_le_iff (n := 2) |>.2 ?_)) (by decide)
    refine List.forall_mem_cons.2 ⟨Nat.zero_le 2, ?_⟩
    exact List.forall_mem_map.2 fun w _ => w.depth_toJson
  simp [isPortable, hreadable, hdepth]

theorem entryOf?_ofInt {n : Nat} (h : n < UInt64.size) :
    entryOf? (.ofInt n) = some (.length (UInt64.ofNat n)) := by
  have hn := uint64?_ofInt (UInt64.ofNat n)
  rw [UInt64.toNat_ofNat_of_lt' h] at hn
  rw [entryOf?, hn]

theorem entryOf?_toJson (w : Word) : entryOf? w.toJson = some (.word w) := by
  have hword : w.toJson.uint64? = none := rfl
  rw [entryOf?, hword, Word.ofJson?_toJson]
  rfl

theorem list?_toJson (h : image.data.length < UInt64.size) : image.toJson.list? entryOf? =
    some (.length (UInt64.ofNat image.data.length) :: (image.data ++ image.code).map .word) := by
  have hwords : ((image.data ++ image.code).map Word.toJson).mapM entryOf? =
      some ((image.data ++ image.code).map .word) := mapM_map_eq_some fun w _ => entryOf?_toJson w
  rw [toJson, list?, entries, List.mapM_cons, entryOf?_ofInt h, hwords]
  rfl

theorem entries?_write (h : image.data.length < UInt64.size) : entries? image.write =
    some (.length (UInt64.ofNat image.data.length) :: (image.data ++ image.code).map .word) := by
  have hread : read? image.write = some image.toJson :=
    read?_of_tokens (yields_image image).tokens?
  have hguard := (Option.guard_eq_some' ()).2 (isPortable_toJson h)
  rw [entries?, hread, Option.bind_eq_bind, Option.bind_some, hguard, list?_toJson h]
  rfl

theorem words_map (position : Nat) (ws : List Word) : words position (ws.map .word) = .ok ws := by
  induction ws generalizing position with
  | nil => rfl
  | cons w ws ih =>
    rw [List.map_cons, words, ih]
    rfl

theorem ofEntries_words (image : Image) {n : UInt64} (hn : n.toNat = image.data.length) :
    ofEntries (.length n :: (image.data ++ image.code).map .word) =
      image.check >>= fun _ => .ok image := by
  have hfits : ¬ (image.data ++ image.code).length < image.data.length := by
    rw [List.length_append]
    omega
  rw [ofEntries, words_map, hn]
  show (if _ then _ else _) = _
  rw [if_neg hfits, List.take_left, List.drop_left]
  rfl

theorem read_write (h : image.data.length < UInt64.size) :
    read image.write = image.check >>= fun _ => .ok image := by
  rw [read, entries?_write h]
  exact ofEntries_words image (UInt64.toNat_ofNat_of_lt' h)

/-- Reading what was written gives the image if it passes the check, as every translated image does,
and else the fault that the check finds. The header holds the number of data words in 64 bits. -/
theorem read_render (h : image.data.length < UInt64.size) :
    (image.check = .ok () → read image.render.toList = .ok image) ∧
    (∀ fault, image.check = .error fault → read image.render.toList = .error fault) ∧
    ∀ source, Assembly.translate source = .ok image → read image.render.toList = .ok image := by
  have hread : read image.render.toList = image.check >>= fun _ => .ok image := by
    rw [render, String.toList_ofList, read_write h]
  refine ⟨fun hcheck => ?_, fun fault hcheck => ?_, fun source hsource => ?_⟩
  · rw [hread, hcheck]
    rfl
  · rw [hread, hcheck]
    rfl
  · rw [hread, Assembly.check_of_translate hsource]
    rfl

theorem read_render_extremes :
    read (Image.render ⟨[⟨0, .buffer, [-1]⟩], [⟨0, .hlt, []⟩, ⟨7, .string, [104]⟩]⟩).toList =
      .error (.misplaced .code 7 .string) ∧
    read (Image.render ⟨[⟨18446744073709551615, .number, [-9223372036854775808, 0]⟩],
        [⟨3, .loadV, []⟩]⟩).toList =
      .ok ⟨[⟨18446744073709551615, .number, [-9223372036854775808, 0]⟩], [⟨3, .loadV, []⟩]⟩ ∧
    read (Image.render ⟨[⟨0, .number, [1234]⟩, ⟨1, .number, [1234]⟩, ⟨2, .buffer, [0]⟩],
        [⟨0, .mov, [0, 2]⟩]⟩).toList =
      .ok ⟨[⟨0, .number, [1234]⟩, ⟨1, .number, [1234]⟩, ⟨2, .buffer, [0]⟩],
        [⟨0, .mov, [0, 2]⟩]⟩ :=
  ⟨(read_render (by decide)).2.1 _ rfl, (read_render (by decide)).1 rfl,
    (read_render (by decide)).2.2 ".data\nbuffer b 1\n.code\nmov r1, b".toList rfl⟩

end Image
end TickMachine
