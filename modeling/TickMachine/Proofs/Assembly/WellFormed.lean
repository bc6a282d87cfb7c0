import TickMachine.Proofs.Assembly.Cells

/-! Well-formed images. What the assembler makes is numbered by its places, every declaration fills
its cells with what its kind holds, and a name stands for a place in the code or in the data behind
the ports. -/

namespace TickMachine

structure Word.IsDeclared (w : Word) (place : Nat) : Prop where
  index : w.index = UInt64.ofNat place
  value : ∃ v, w.args = [v] ∧ (w.opcode = .buffer → v = 0) ∧
    (w.opcode = .string → ∃ c : Char, v = Int64.ofNat c.toNat)

structure Image.IsWellFormed (image : Image) : Prop where
  check : image.check = .ok ()
  ports : [⟨0, .number, [1234]⟩, ⟨1, .number, [1234]⟩] <+: image.data
  data : ∀ (i : Nat) (w : Word), image.data[i]? = some w → w.IsDeclared i
  code : ∀ (i : Nat) (w : Word), image.code[i]? = some w →
    w.index = UInt64.ofNat i ∧ w.IsShaped

namespace Assembly

/-- `v` is the number of a place from `first` to `last`, and shows it unless there are more places
than numbers. -/
def IsPlace (first last : Nat) (v : Int64) : Prop :=
  ∃ n : Nat, first ≤ n ∧ n ≤ last ∧ v = Int64.ofNat n ∧ (last ≤ Int64.maxValue.toInt → v.toInt = n)

structure DataLayout.IsSound (l : DataLayout) : Prop where
  ports : [⟨0, .number, [portValue]⟩, ⟨1, .number, [portValue]⟩] <+: l.cells
  cells : ∀ (i : Nat) (w : Word), l.cells[i]? = some w → w.IsDeclared i
  names : ∀ x ∈ l.names, IsPlace 2 l.cells.length x.2

variable {first last n i : Nat} {v : Int64} {kind : Opcode} {text name : List Char}
  {values : List Int64} {w : Word} {d : Draft} {l : Layout} {image : Image}

theorem isPlace_ofNat (hfirst : first ≤ n) (hlast : n ≤ last) :
    IsPlace first last (Int64.ofNat n) := by
  refine ⟨n, hfirst, hlast, rfl, fun hmax => ?_⟩
  have hlt := Int64.maxValue.toInt_lt
  exact Int64.toInt_ofNat_of_lt (by omega)

theorem IsPlace.mono {last' : Nat} (h : IsPlace first last v) (hle : last ≤ last') :
    IsPlace first last' v := by
  obtain ⟨n, hfirst, hlast, rfl, -⟩ := h
  exact isPlace_ofNat hfirst (Nat.le_trans hlast hle)

theorem cellValues_hold (h : cellValues kind text = .ok values) : ∀ v ∈ values,
    (kind = .buffer → v = 0) ∧ (kind = .string → ∃ c : Char, v = Int64.ofNat c.toNat) := by
  intro v hv
  refine ⟨?_, ?_⟩
  · rintro rfl
    obtain ⟨size, -, h⟩ := except_bind_eq_ok_iff.1 h
    split at h
    · cases h
    · obtain rfl := Except.ok.inj h
      exact (List.mem_replicate.1 hv).2
  · rintro rfl
    obtain rfl := Except.ok.inj h
    rcases List.mem_append.1 hv with hv | hv
    · obtain ⟨c, -, rfl⟩ := List.mem_map.1 hv
      exact ⟨c, rfl⟩
    · exact ⟨'\x00', List.mem_singleton.1 hv⟩

theorem cellsFrom_isDeclared {address : Nat} (hvalues : ∀ v ∈ values,
    (kind = .buffer → v = 0) ∧ (kind = .string → ∃ c : Char, v = Int64.ofNat c.toNat))
    (h : (cellsFrom address kind values)[i]? = some w) : w.IsDeclared (address + i) := by
  rw [cellsFrom, List.getElem?_mapIdx] at h
  obtain ⟨v, hv, rfl⟩ := Option.map_eq_some_iff.1 h
  exact ⟨rfl, v, rfl, hvalues v (List.mem_of_getElem? hv)⟩

theorem DataLayout.IsSound.two_le {l : DataLayout} (hl : l.IsSound) : 2 ≤ l.cells.length :=
  hl.ports.length_le

theorem DataLayout.IsSound.declare {l l' : DataLayout} (hl : l.IsSound)
    (h : l.declare text = .ok l') : l'.IsSound := by
  unfold DataLayout.declare at h
  split at h
  · split at h
    · next d _ kind _ =>
      split at h
      · cases h
      · obtain ⟨values, hvalues, h⟩ := except_bind_eq_ok_iff.1 h
        obtain rfl := Except.ok.inj h
        have hlength : l.cells.length ≤ (l.cells ++ cellsFrom l.cells.length kind values).length :=
          by simp
        refine ⟨hl.ports.trans (List.prefix_append _ _), fun i w hw => ?_, ?_⟩
        · rw [List.getElem?_append] at hw
          split at hw
          · exact hl.cells i w hw
          · next hi =>
            have hcell := cellsFrom_isDeclared (cellValues_hold hvalues) hw
            rwa [Nat.add_sub_cancel' (Nat.not_lt.1 hi)] at hcell
        · rw [List.forall_mem_cons]
          exact ⟨isPlace_ofNat hl.two_le hlength, fun x hx => (hl.names x hx).mono hlength⟩
    · cases h
  · cases h

theorem Layout.place_data_isSound {l' : Layout} {s : Statement} (hl : l.data.IsSound)
    (h : l.place s = .ok l') : l'.data.IsSound := by
  rw [Layout.place, mapError_eq_ok_iff] at h
  split at h
  · obtain ⟨data, hdata, h⟩ := except_bind_eq_ok_iff.1 h
    obtain rfl := Except.ok.inj h
    exact hl.declare hdata
  · obtain ⟨code, -, h⟩ := except_bind_eq_ok_iff.1 h
    obtain rfl := Except.ok.inj h
    exact hl
  · cases h

theorem start_isSound : Layout.start.data.IsSound := by
  refine ⟨List.prefix_rfl, fun i w hw => ?_, nofun⟩
  match i with
  | 0 =>
    obtain rfl := Option.some.inj hw
    exact ⟨rfl, portValue, rfl, nofun, nofun⟩
  | 1 =>
    obtain rfl := Option.some.inj hw
    exact ⟨rfl, portValue, rfl, nofun, nofun⟩
  | i + 2 => cases hw

theorem layout_data_isSound {ss : List Statement} (h : layout ss = .ok l) : l.data.IsSound :=
  foldlM_keeps (I := fun l => l.data.IsSound) (fun _ _ _ => Layout.place_data_isSound)
    start_isSound h

theorem mem_of_lookup {names : Symbols} (h : names.lookup name = some v) : (name, v) ∈ names := by
  obtain ⟨before, after, rfl, -⟩ := List.lookup_eq_some_iff.1 h
  exact List.mem_append_right _ (List.mem_cons_self ..)

/-- What `v` stands for if it came from the name `name`: a place in the code or its end, or one in
the data behind the ports or its end. -/
def Layout.Names (l : Layout) (image : Image) (name : List Char) (v : Int64) : Prop :=
  (name, v) ∈ l.code.labels ∧ IsPlace 0 image.code.length v ∨
    (name, v) ∈ l.data.names ∧ IsPlace 2 image.data.length v

theorem Layout.names_of_lookup? (hcode : l.code.IsSound) (hdata : l.data.IsSound)
    (hlength : image.code.length = l.code.drafts.length) (hcells : image.data = l.data.cells)
    (h : l.lookup? name = some v) : l.Names image name v := by
  rcases Option.or_eq_some_iff.1 h with h | ⟨-, h⟩
  · have hmem := mem_of_lookup h
    obtain ⟨n, hn, hv⟩ := hcode.labels _ hmem
    have hplace : IsPlace 0 image.code.length (Int64.ofNat n) :=
      isPlace_ofNat (Nat.zero_le n) (hlength ▸ hn)
    exact .inl ⟨hmem, by rwa [show v = _ from hv]⟩
  · have hmem := mem_of_lookup h
    exact .inr ⟨hmem, hcells ▸ hdata.names _ hmem⟩

theorem Layout.word_eq_ok (h : l.word i d = .ok w) : w.index = UInt64.ofNat i ∧
    w.opcode = d.opcode ∧ ∀ (j : Nat) (name : List Char), d.operands[j]? = some (.symbol name) →
      ∃ v, w.args[j]? = some v ∧ l.lookup? name = some v := by
  obtain ⟨args, hargs, h⟩ := except_bind_eq_ok_iff.1 h
  obtain rfl := Except.ok.inj h
  refine ⟨rfl, rfl, fun j name hj => ?_⟩
  have hresolve := getElem?_of_mapM_eq_ok hargs j
  rw [hj] at hresolve
  obtain ⟨v, hv, hname⟩ := Option.map_eq_some_iff.1 hresolve.symm
  refine ⟨v, hv, ?_⟩
  rw [Layout.resolve] at hname
  split at hname
  · next hlookup =>
    obtain rfl := Except.ok.inj hname
    exact hlookup
  · cases hname

theorem Layout.image_eq_ok (h : l.image = .ok image) : image.data = l.data.cells ∧
    ∀ i, l.code.drafts[i]?.map (l.word i) = image.code[i]?.map .ok := by
  obtain ⟨code, hwords, h⟩ := except_bind_eq_ok_iff.1 h
  obtain rfl := Except.ok.inj h
  refine ⟨rfl, fun i => ?_⟩
  have hword := getElem?_of_mapM_eq_ok hwords i
  simp only [List.getElem?_zipIdx, Option.map_map, Nat.zero_add] at hword
  exact hword

/-- A translated image is well-formed, and its code is that of the layout word by word, where every
argument that came from a name is a place that the name stands for. -/
theorem translate_wellFormed {source : List Char} (h : translate source = .ok image) :
    image.IsWellFormed ∧ ∃ l, layout (statements source) = .ok l ∧
      image.code.length = l.code.drafts.length ∧
      ∀ (i : Nat) (d : Draft), l.code.drafts[i]? = some d →
        ∃ w : Word, image.code[i]? = some w ∧ w.opcode = d.opcode ∧
          ∀ (j : Nat) (name : List Char), d.operands[j]? = some (.symbol name) →
            ∃ v, w.args[j]? = some v ∧ l.Names image name v := by
  have hcheck := check_of_translate h
  obtain ⟨l, hl, hcode, hlength, hshape⟩ := translate_eq_ok h
  have hdata := layout_data_isSound hl
  obtain ⟨l', hl', himage⟩ := except_bind_eq_ok_iff.1 h
  obtain rfl := Except.ok.inj (hl.symm.trans hl')
  obtain ⟨hcells, hwords⟩ := Layout.image_eq_ok himage
  have hwell : image.IsWellFormed := by
    refine ⟨hcheck, hcells ▸ hdata.ports, hcells ▸ hdata.cells, fun i w hw => ?_⟩
    have hword := hwords i
    rw [hw] at hword
    obtain ⟨d, -, hd⟩ := Option.map_eq_some_iff.1 hword
    exact ⟨(Layout.word_eq_ok hd).1, hshape w (List.mem_of_getElem? hw)⟩
  refine ⟨hwell, l, hl, hlength, fun i d hd => ?_⟩
  have hword := hwords i
  rw [hd] at hword
  obtain ⟨w, hw, hword⟩ := Option.map_eq_some_iff.1 hword.symm
  obtain ⟨-, hopcode, hargs⟩ := Layout.word_eq_ok hword.symm
  refine ⟨w, hw, hopcode, fun j name hj => ?_⟩
  obtain ⟨v, hv, hlookup⟩ := hargs j name hj
  exact ⟨v, hv, Layout.names_of_lookup? hcode hdata hlength hcells hlookup⟩

theorem translate_wellFormed_ends : ∃ (image : Image) (l : Layout),
    translate ".data\nSTRING s \"é\"\nBUFFER b 0\n.code\nlinear r1 s r2 b r3\njmp e\ne:".toList =
      .ok image ∧ image.data.length = 4 ∧ image.code.length = 3 ∧ image.IsWellFormed ∧
    l.Names image ['b'] 4 ∧ l.Names image ['e'] 3 := by
  have h : translate
      ".data\nSTRING s \"é\"\nBUFFER b 0\n.code\nlinear r1 s r2 b r3\njmp e\ne:".toList =
      .ok ⟨[⟨0, .number, [1234]⟩, ⟨1, .number, [1234]⟩, ⟨2, .string, [233]⟩, ⟨3, .string, [0]⟩],
        [⟨0, .linear, [0, 2, 1]⟩, ⟨1, .linearCont, [0, 4, 2]⟩, ⟨2, .jmp, [3]⟩]⟩ := rfl
  obtain ⟨hwell, l, hl, -, hnames⟩ := translate_wellFormed h
  obtain rfl := Except.ok.inj hl
  obtain ⟨_, hcont, -, hb⟩ := hnames 1 _ rfl
  obtain ⟨_, hjmp, -, he⟩ := hnames 2 _ rfl
  obtain rfl := Option.some.inj hcont
  obtain rfl := Option.some.inj hjmp
  obtain ⟨_, hb4, hb⟩ := hb 1 ['b'] rfl
  obtain ⟨_, he3, he⟩ := he 0 ['e'] rfl
  obtain rfl := Option.some.inj hb4
  obtain rfl := Option.some.inj he3
  exact ⟨_, _, h, rfl, rfl, hwell, hb, he⟩

end Assembly
end TickMachine
