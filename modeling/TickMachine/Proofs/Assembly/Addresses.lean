import TickMachine.Proofs.Assembly.Sections
import TickMachine.Proofs.Assembly.Symbols

/-! Where everything comes to lie. The cells of the declarations follow the ports in the order of
the source, and so do the words of the lines of code from 0 on; what a name stands for is the number
of places in front of its definition. -/

namespace TickMachine.Assembly

def Declared.size (d : Declared) : Nat := d.values.length

def wordsIn (ss : List Statement) : Nat :=
  ((textsIn .code ss).map fun text => (CodeLine.read text).wordCount).sum

def declaredCells (address : Nat) (ds : List Declared) : List Word :=
  (ds.flatMap fun d => d.values.map fun v => (d.kind, v)).mapIdx fun i c =>
    ⟨UInt64.ofNat (address + i), c.1, [c.2]⟩

def variablesFrom (address : Nat) (ds : List Declared) : Symbols :=
  entriesFrom (fun d => some d.name) Declared.size address ds

def labelsFrom (address : Nat) (cs : List CodeLine) : Symbols :=
  entriesFrom CodeLine.label? CodeLine.wordCount address cs

variable {ds : List Declared} {d : Declared} {texts : List (List Char)} {data : DataLayout}
  {code : CodeLayout} {ss : List Statement} {iss : List (List Instruction)} {address : Nat}

theorem declaredCells_cons : declaredCells address (d :: ds) =
    cellsFrom address d.kind d.values ++ declaredCells (address + d.size) ds := by
  have hfirst : (d.values.map fun v => (d.kind, v)).mapIdx (fun i c =>
      (⟨UInt64.ofNat (address + i), c.1, [c.2]⟩ : Word)) = cellsFrom address d.kind d.values := by
    apply List.ext_getElem?
    intro i
    simp [cellsFrom, Function.comp_def]
  have hindex (i : Nat) : address + (i + d.values.length) = address + d.size + i := by
    rw [Declared.size]
    omega
  rw [declaredCells, List.flatMap_cons, List.mapIdx_append, hfirst, List.length_map]
  simp only [hindex]
  rfl

theorem length_declaredCells : (declaredCells address ds).length = (ds.map Declared.size).sum := by
  induction ds generalizing address with
  | nil => rfl
  | cons d ds ih =>
    rw [declaredCells_cons, List.length_append, ih, List.map_cons, List.sum_cons]
    simp [cellsFrom, Declared.size]

theorem declaredCells_append (ds es : List Declared) : declaredCells address (ds ++ es) =
    declaredCells address ds ++ declaredCells (address + (ds.map Declared.size).sum) es := by
  induction ds generalizing address with
  | nil => rfl
  | cons d ds ih =>
    rw [List.cons_append, declaredCells_cons, ih, declaredCells_cons, List.append_assoc,
      List.map_cons, List.sum_cons, Nat.add_assoc]

theorem foldl_extend_data (l : DataLayout) : ds.foldl DataLayout.extend l =
    ⟨l.cells ++ declaredCells l.cells.length ds,
      (variablesFrom l.cells.length ds).reverse ++ l.names⟩ := by
  induction ds generalizing l with
  | nil => simp [declaredCells, variablesFrom, entriesFrom]
  | cons d ds ih =>
    have hlength : (l.extend d).cells.length = l.cells.length + d.size := by
      simp [DataLayout.extend, cellsFrom, Declared.size]
    rw [List.foldl_cons, ih, hlength, declaredCells_cons]
    simp [DataLayout.extend, variablesFrom, entriesFrom]

theorem foldl_zip_snd {σ β γ : Type} {g : σ → γ → σ} {s : σ} {xs : List β} {ys : List γ}
    (h : xs.length = ys.length) : (xs.zip ys).foldl (fun s p => g s p.2) s = ys.foldl g s := by
  have hsnd : (xs.zip ys).map Prod.snd = ys := List.map_snd_zip (Nat.le_of_eq h.symm)
  rw [← List.foldl_map, hsnd]

theorem filterMap_name (ds : List Declared) :
    ds.filterMap (fun d => some d.name) = ds.map Declared.name := by
  rw [List.filterMap_eq_map']

theorem declareAll_eq_ok_iff : texts.foldlM DataLayout.declare Layout.start.data = .ok data ↔
    ∃ ds, List.Forall₂ Declares texts ds ∧ (ds.map Declared.name).Nodup ∧
      ⟨Layout.start.data.cells ++ declaredCells 2 ds, (variablesFrom 2 ds).reverse⟩ = data := by
  have hstep (l : DataLayout) (text : List Char) (l' : DataLayout) (hl : IsUnambiguous l.names) :
      l.declare text = .ok l' ↔
        ∃ d, Declares text d ∧ l.extend d = l' ∧ IsUnambiguous l'.names := by
    rw [DataLayout.declare_eq_ok_iff]
    refine exists_congr fun d => and_congr_right fun _ => ?_
    rw [and_comm]
    refine and_congr_right ?_
    rintro rfl
    exact ⟨fun h => isUnambiguous_cons_iff.2 ⟨h, hl⟩, fun h => (isUnambiguous_cons_iff.1 h).1⟩
  have hback (l : DataLayout) (text : List Char) (d : Declared)
      (h : IsUnambiguous (l.extend d).names) : IsUnambiguous l.names :=
    (isUnambiguous_cons_iff.1 h).2
  have hstart : IsUnambiguous Layout.start.data.names := List.nodup_nil
  rw [foldlM_eq_ok_iff_forall₂ hstep hback hstart]
  refine exists_congr fun ds => and_congr_right fun hds => ?_
  have hextend : ds.foldl DataLayout.extend Layout.start.data =
      ⟨Layout.start.data.cells ++ declaredCells 2 ds, (variablesFrom 2 ds).reverse⟩ := by
    rw [foldl_extend_data]
    exact congrArg _ (List.append_nil _)
  rw [foldl_zip_snd hds.length_eq, hextend, and_comm]
  refine and_congr_left ?_
  rintro rfl
  rw [← filterMap_name]
  exact isUnambiguous_entriesFrom_iff

def draftsOf (ss : List Statement) (iss : List (List Instruction)) : List Draft :=
  (ss.zip iss).flatMap fun p => p.2.map (Instruction.draft p.1.line)

theorem foldl_extend_code (l : CodeLayout)
    (h : List.Forall₂ (fun s is => s.codeLine.Gives is) ss iss) :
    (ss.zip iss).foldl (fun l p => l.extend p.1.line p.1.codeLine p.2) l =
      ⟨l.drafts ++ draftsOf ss iss,
        (labelsFrom l.drafts.length (ss.map Statement.codeLine)).reverse ++ l.labels⟩ := by
  induction h generalizing l with
  | nil => simp [draftsOf, labelsFrom, entriesFrom]
  | @cons s is ss iss hs _ ih =>
    have hlength : (l.extend s.line s.codeLine is).drafts.length =
        l.drafts.length + s.codeLine.wordCount := by
      simp [CodeLayout.extend, hs.length_eq]
    have hlabel : (s.codeLine.label?.toList.map fun name =>
        (name, Int64.ofNat l.drafts.length)).reverse =
          s.codeLine.label?.toList.map fun name => (name, Int64.ofNat l.drafts.length) := by
      cases s.codeLine.label? <;> rfl
    rw [List.zip_cons_cons, List.foldl_cons, ih, hlength]
    simp [CodeLayout.extend, draftsOf, labelsFrom, entriesFrom, hlabel]

theorem isUnambiguous_extend_iff {l : CodeLayout} {line : Nat} {c : CodeLine}
    {is : List Instruction} (hl : IsUnambiguous l.labels) :
    IsUnambiguous (l.extend line c is).labels ↔
      ∀ name, c.label? = some name → l.labels.lookup name = none := by
  cases c with
  | label name =>
    refine isUnambiguous_cons_iff.trans ⟨?_, fun h => ⟨h name rfl, hl⟩⟩
    rintro ⟨h, -⟩ _ ⟨⟩
    exact h
  | instruction mnemonic os => exact ⟨fun _ => nofun, fun _ => hl⟩

theorem CodeLayout.placeStatement_eq_ok_iff {l l' : CodeLayout} {s : Statement}
    (hl : IsUnambiguous l.labels) : l.placeStatement s = .ok l' ↔
      ∃ is, s.codeLine.Gives is ∧ l.extend s.line s.codeLine is = l' ∧
        IsUnambiguous l'.labels := by
  rw [placeStatement, place_eq_ok_iff]
  refine exists_congr fun is => and_congr_right fun _ => ?_
  rw [and_comm]
  refine and_congr_right ?_
  rintro rfl
  exact (isUnambiguous_extend_iff hl).symm

theorem placeAll_eq_ok_iff :
    ss.foldlM CodeLayout.placeStatement Layout.start.code = .ok code ↔
      ∃ iss, List.Forall₂ (fun s is => s.codeLine.Gives is) ss iss ∧
        ((ss.map Statement.codeLine).filterMap CodeLine.label?).Nodup ∧
        ⟨draftsOf ss iss, (labelsFrom 0 (ss.map Statement.codeLine)).reverse⟩ = code := by
  have hback (l : CodeLayout) (s : Statement) (is : List Instruction)
      (h : IsUnambiguous (l.extend s.line s.codeLine is).labels) : IsUnambiguous l.labels := by
    rw [IsUnambiguous, CodeLayout.extend, List.map_append] at h
    exact h.of_append_right
  have hstart : IsUnambiguous Layout.start.code.labels := List.nodup_nil
  have hstep (l : CodeLayout) (s : Statement) (l' : CodeLayout) (hl : IsUnambiguous l.labels) :
      l.placeStatement s = .ok l' ↔ ∃ is, s.codeLine.Gives is ∧
        l.extend s.line s.codeLine is = l' ∧ IsUnambiguous l'.labels :=
    CodeLayout.placeStatement_eq_ok_iff hl
  rw [foldlM_eq_ok_iff_forall₂ hstep hback hstart]
  refine exists_congr fun iss => and_congr_right fun hiss => ?_
  have hextend := foldl_extend_code Layout.start.code hiss
  rw [show Layout.start.code = ⟨[], []⟩ from rfl] at hextend ⊢
  rw [hextend, List.nil_append, List.append_nil, and_comm]
  refine and_congr_left ?_
  rintro rfl
  exact isUnambiguous_entriesFrom_iff

/-! ### Outlines -/

structure Outline where
  declared : List Declared
  lines : List CodeLine
  instructions : List (List Instruction)

namespace Outline

/-- Every statement stands in a section and says what the outline has of it, and no two labels and
no two variables have the same name. -/
structure Describes (o : Outline) (ss : List Statement) : Prop where
  placed : ∀ s ∈ ss, s.place ≠ none
  declared : List.Forall₂ Declares (textsIn .data ss) o.declared
  names : (o.declared.map Declared.name).Nodup
  lines : o.lines = (textsIn .code ss).map CodeLine.read
  instructions : List.Forall₂ CodeLine.Gives o.lines o.instructions
  labels : (o.lines.filterMap CodeLine.label?).Nodup

/-- The address of a variable: 2 and the number of cells of the declarations before its own. -/
def VariableAt (o : Outline) (name : List Char) (n : Nat) : Prop :=
  ∃ k, DefinedAt (fun d => some d.name) Declared.size o.declared name k ∧ n = 2 + k

/-- The address of a label: the number of words of the lines before it. -/
def LabelAt (o : Outline) (name : List Char) (n : Nat) : Prop :=
  DefinedAt CodeLine.label? CodeLine.wordCount o.lines name n

def addressBehind (o : Outline) (i : Nat) : Nat := 2 + ((o.declared.take i).map Declared.size).sum

/-- What an operand stands for. A label comes before a variable of the same name. -/
inductive Denotes (o : Outline) : Operand → Int64 → Prop
  | value {v : Int64} : o.Denotes (.value v) v
  | ofLabel {name : List Char} {n : Nat} (h : o.LabelAt name n) :
    o.Denotes (.symbol name) (Int64.ofNat n)
  | ofVariable {name : List Char} {n : Nat} (hnone : ∀ k, ¬ o.LabelAt name k)
    (h : o.VariableAt name n) : o.Denotes (.symbol name) (Int64.ofNat n)

/-- The image has the cells of the declarations behind the ports, and the instructions word by word
with every operand replaced by what it stands for. -/
structure Builds (o : Outline) (image : Image) : Prop where
  data : image.data =
    [⟨0, .number, [1234]⟩, ⟨1, .number, [1234]⟩] ++ declaredCells 2 o.declared
  code : List.Forall₂ (fun (p : Instruction × Nat) (w : Word) => w.index = UInt64.ofNat p.2 ∧
    w.opcode = p.1.opcode ∧ List.Forall₂ o.Denotes p.1.operands w.args)
      o.instructions.flatten.zipIdx image.code

/-- The declarations share out the cells behind the ports: each has a range of its own, which starts
at its variable and holds its values, and together the ranges leave no cell out. -/
structure Tiles (o : Outline) (cells : List Word) : Prop where
  address : ∀ i d, o.declared[i]? = some d → o.VariableAt d.name (o.addressBehind i)
  values : ∀ i d, o.declared[i]? = some d →
    (cells.drop (o.addressBehind i)).take d.size = cellsFrom (o.addressBehind i) d.kind d.values
  cover : ∀ a, 2 ≤ a → a < cells.length → ∃! i, ∃ d, o.declared[i]? = some d ∧
    o.addressBehind i ≤ a ∧ a < o.addressBehind i + d.size
  last : cells.length = o.addressBehind o.declared.length
  ports : ∀ name n, o.VariableAt name n → 2 ≤ n ∧ n ≤ cells.length

def layout (o : Outline) (ss : List Statement) : Layout where
  data :=
    ⟨Layout.start.data.cells ++ declaredCells 2 o.declared, (variablesFrom 2 o.declared).reverse⟩
  code := ⟨draftsOf (statementsIn .code ss) o.instructions, (labelsFrom 0 o.lines).reverse⟩

end Outline

theorem layout_eq_ok_iff {l : Layout} :
    layout ss = .ok l ↔ ∃ o : Outline, o.Describes ss ∧ o.layout ss = l := by
  have hlines : (textsIn .code ss).map CodeLine.read =
      (statementsIn .code ss).map Statement.codeLine := List.map_map ..
  rw [layout, foldlM_place_eq_ok_iff, declareAll_eq_ok_iff, placeAll_eq_ok_iff]
  constructor
  · rintro ⟨hplaced, ⟨ds, hds, hnames, hdata⟩, iss, hiss, hlabels, hcode⟩
    refine ⟨⟨ds, _, iss⟩, ⟨hplaced, hds, hnames, hlines.symm, ?_, hlabels⟩, ?_⟩
    · exact List.forall₂_map_left_iff.2 hiss
    · rw [Outline.layout, hdata, hcode]
  · rintro ⟨⟨ds, lines, iss⟩, ⟨hplaced, hds, hnames, hread, hiss, hlabels⟩, rfl⟩
    obtain rfl : lines = _ := hread.trans hlines
    exact ⟨hplaced, ⟨ds, hds, hnames, rfl⟩, iss, List.forall₂_map_left_iff.1 hiss, hlabels, rfl⟩

namespace Outline

variable {o : Outline} {name : List Char} {v : Int64} {n : Nat} {image : Image}

theorem Describes.labels_lookup (h : o.Describes ss) :
    (o.layout ss).code.labels.lookup name = some v ↔ ∃ n, o.LabelAt name n ∧ v = Int64.ofNat n := by
  have hlookup : (o.layout ss).code.labels.lookup name = some v ↔
      ∃ n, o.LabelAt name n ∧ v = Int64.ofNat (0 + n) := lookup_entriesFrom_eq_some_iff h.labels
  simp only [Nat.zero_add] at hlookup
  exact hlookup

theorem Describes.names_lookup (h : o.Describes ss) :
    (o.layout ss).data.names.lookup name = some v ↔
      ∃ n, o.VariableAt name n ∧ v = Int64.ofNat n := by
  have hnames : (o.declared.filterMap fun d => some d.name).Nodup :=
    filterMap_name o.declared ▸ h.names
  refine (lookup_entriesFrom_eq_some_iff hnames).trans ⟨?_, ?_⟩
  · rintro ⟨k, hk, rfl⟩
    exact ⟨2 + k, ⟨k, hk, rfl⟩, rfl⟩
  · rintro ⟨_, ⟨k, hk, rfl⟩, rfl⟩
    exact ⟨k, hk, rfl⟩

theorem Describes.labels_lookup_eq_none_iff (h : o.Describes ss) :
    (o.layout ss).code.labels.lookup name = none ↔ ∀ n, ¬ o.LabelAt name n := by
  rw [Option.eq_none_iff_forall_ne_some]
  constructor
  · intro hnone n hn
    exact hnone _ (h.labels_lookup.2 ⟨n, hn, rfl⟩)
  · intro hnone v hv
    obtain ⟨n, hn, -⟩ := h.labels_lookup.1 hv
    exact hnone n hn

theorem Describes.lookup?_eq_some_iff (h : o.Describes ss) :
    (o.layout ss).lookup? name = some v ↔ o.Denotes (.symbol name) v := by
  rw [Layout.lookup?, Option.or_eq_some_iff, h.labels_lookup, h.labels_lookup_eq_none_iff,
    h.names_lookup]
  constructor
  · rintro (⟨n, hn, rfl⟩ | ⟨hnone, n, hn, rfl⟩)
    · exact .ofLabel hn
    · exact .ofVariable hnone hn
  · rintro (_ | hn | ⟨hnone, hn⟩)
    · exact .inl ⟨_, hn, rfl⟩
    · exact .inr ⟨hnone, _, hn, rfl⟩

theorem Describes.resolve_eq_ok_iff (h : o.Describes ss) {line : Nat} {operand : Operand} :
    (o.layout ss).resolve line operand = .ok v ↔ o.Denotes operand v := by
  cases operand with
  | value u =>
    constructor
    · rintro ⟨⟩
      exact .value
    · rintro ⟨⟩
      rfl
  | symbol name =>
    rw [← h.lookup?_eq_some_iff, Layout.resolve]
    cases (o.layout ss).lookup? name <;> simp

end Outline

theorem Layout.word_eq_ok_iff {l : Layout} {i : Nat} {d : Draft} {w : Word} :
    l.word i d = .ok w ↔ w.index = UInt64.ofNat i ∧ w.opcode = d.opcode ∧
      List.Forall₂ (fun o v => l.resolve d.line o = .ok v) d.operands w.args := by
  obtain ⟨index, opcode, args⟩ := w
  rw [word, except_bind_eq_ok_iff]
  simp only [mapM_eq_ok_iff_forall₂]
  constructor
  · rintro ⟨_, hargs, ⟨⟩⟩
    exact ⟨rfl, rfl, hargs⟩
  · rintro ⟨rfl, rfl, hargs⟩
    exact ⟨args, hargs, rfl⟩

theorem Layout.image_eq_ok_iff {l : Layout} {image : Image} : l.image = .ok image ↔
    image.data = l.data.cells ∧
      List.Forall₂ (fun p w => l.word p.2 p.1 = .ok w) l.code.drafts.zipIdx image.code := by
  obtain ⟨data, code⟩ := image
  rw [Layout.image, except_bind_eq_ok_iff]
  simp only [mapM_eq_ok_iff_forall₂]
  constructor
  · rintro ⟨_, hcode, ⟨⟩⟩
    exact ⟨rfl, hcode⟩
  · rintro ⟨rfl, hcode⟩
    exact ⟨code, hcode, rfl⟩

def Draft.instruction (d : Draft) : Instruction := ⟨d.opcode, d.operands⟩

theorem map_instruction_draftsOf (h : ss.length = iss.length) :
    (draftsOf ss iss).map Draft.instruction = iss.flatten := by
  have hsame (line : Nat) (is : List Instruction) :
      (is.map (Instruction.draft line)).map Draft.instruction = is := by
    rw [List.map_map]
    exact List.map_id is
  have hsnd : (ss.zip iss).map Prod.snd = iss := List.map_snd_zip (Nat.le_of_eq h.symm)
  rw [draftsOf, List.map_flatMap]
  simp only [hsame]
  rw [List.flatMap_def, hsnd]

theorem Outline.Describes.image_eq_ok_iff {o : Outline} {image : Image} (h : o.Describes ss) :
    (o.layout ss).image = .ok image ↔ o.Builds image := by
  have hlength : (statementsIn .code ss).length = o.instructions.length := by
    have hlines := h.instructions.length_eq
    rwa [h.lines, List.length_map, textsIn, List.length_map] at hlines
  have hdrafts := map_instruction_draftsOf hlength
  have hpairs : o.instructions.flatten.zipIdx =
      (draftsOf (statementsIn .code ss) o.instructions).zipIdx.map
        fun p => (p.1.instruction, p.2) := by
    rw [← hdrafts, List.zipIdx_map]
    rfl
  have hword (p : Draft × Nat) (w : Word) : (o.layout ss).word p.2 p.1 = .ok w ↔
      w.index = UInt64.ofNat p.2 ∧ w.opcode = p.1.opcode ∧
        List.Forall₂ o.Denotes p.1.operands w.args := by
    simp only [Layout.word_eq_ok_iff, h.resolve_eq_ok_iff]
  rw [Layout.image_eq_ok_iff]
  simp only [hword]
  constructor
  · rintro ⟨hdata, hcode⟩
    refine ⟨hdata, ?_⟩
    rw [hpairs, List.forall₂_map_left_iff]
    exact hcode
  · rintro ⟨hdata, hcode⟩
    rw [hpairs, List.forall₂_map_left_iff] at hcode
    exact ⟨hdata, hcode⟩

theorem translate_eq_ok_iff {source : List Char} {image : Image} : translate source = .ok image ↔
    ∃ o : Outline, o.Describes (statements source) ∧ o.Builds image := by
  rw [translate, except_bind_eq_ok_iff]
  simp only [layout_eq_ok_iff]
  constructor
  · rintro ⟨_, ⟨o, ho, rfl⟩, himage⟩
    exact ⟨o, ho, ho.image_eq_ok_iff.1 himage⟩
  · rintro ⟨o, ho, hbuilds⟩
    exact ⟨_, ⟨o, ho, rfl⟩, ho.image_eq_ok_iff.2 hbuilds⟩

namespace Outline

variable {o : Outline} {image : Image} {name : List Char} {n : Nat}

theorem Builds.tiles (h : o.Builds image) : o.Tiles image.data := by
  have hlength : image.data.length = 2 + (o.declared.map Declared.size).sum := by
    rw [h.data, List.length_append, length_declaredCells]
    rfl
  have hsplit {i : Nat} {d : Declared} (hd : o.declared[i]? = some d) :
      o.declared = o.declared.take i ++ d :: o.declared.drop (i + 1) := by
    obtain ⟨hi, rfl⟩ := List.getElem?_eq_some_iff.1 hd
    rw [List.getElem_cons_drop, List.take_append_drop]
  refine ⟨fun i d hd => ?_, fun i d hd => ?_, fun a hfirst hlast => ?_, ?_, ?_⟩
  · exact ⟨_, ⟨_, d, _, hsplit hd, rfl, rfl⟩, rfl⟩
  · have hbefore : (([⟨0, .number, [1234]⟩, ⟨1, .number, [1234]⟩] : List Word) ++
        declaredCells 2 (o.declared.take i)).length = o.addressBehind i := by
      rw [List.length_append, length_declaredCells]
      rfl
    have hsize : (cellsFrom (o.addressBehind i) d.kind d.values).length = d.size := by
      simp [cellsFrom, Declared.size]
    have hcells : image.data = ([⟨0, .number, [1234]⟩, ⟨1, .number, [1234]⟩] ++
        declaredCells 2 (o.declared.take i)) ++ (cellsFrom (o.addressBehind i) d.kind d.values ++
          declaredCells (o.addressBehind i + d.size) (o.declared.drop (i + 1))) := by
      rw [h.data, List.append_assoc, addressBehind, ← declaredCells_cons, ← declaredCells_append,
        ← hsplit hd]
    rw [hcells, List.drop_left' hbefore, List.take_left' hsize]
  · have hbound : a - 2 < (o.declared.map Declared.size).sum := by omega
    have hplace := existsUnique_place hbound
    refine (existsUnique_congr fun i => exists_congr fun d => and_congr_right fun _ => ?_).1 hplace
    rw [addressBehind]
    omega
  · rw [hlength, addressBehind, List.take_length]
  · rintro name _ ⟨_, ⟨before, d, after, hds, -, rfl⟩, rfl⟩
    rw [hlength, hds, List.map_append, List.sum_append]
    omega

theorem map_length_of_gives {cs : List CodeLine} (h : List.Forall₂ CodeLine.Gives cs iss) :
    iss.map List.length = cs.map CodeLine.wordCount := by
  induction h with
  | nil => rfl
  | cons hc _ ih => rw [List.map_cons, List.map_cons, ih, hc.length_eq]

theorem Describes.map_length_instructions (h : o.Describes ss) :
    o.instructions.map List.length = o.lines.map CodeLine.wordCount :=
  map_length_of_gives h.instructions

theorem Describes.exists_words (h : o.Describes ss) (hbuilds : o.Builds image)
    {before after : List Statement} {s : Statement} (hss : ss = before ++ s :: after)
    (hs : s.place = some .code) : ∃ is code ws code', s.codeLine.Gives is ∧
      image.code = code ++ ws ++ code' ∧ code.length = wordsIn before ∧
      List.Forall₂ (fun (p : Instruction × Nat) (w : Word) => w.index = UInt64.ofNat p.2 ∧
        w.opcode = p.1.opcode ∧ List.Forall₂ o.Denotes p.1.operands w.args)
          (is.zipIdx code.length) ws := by
  have hgives := h.instructions
  rw [h.lines, hss, textsIn_append_cons hs, List.map_append, List.map_cons] at hgives
  obtain ⟨iss, rest, hiss, hfront, hrest⟩ := forall₂_append_left_iff.1 hgives
  obtain ⟨is, iss', his, -, rfl⟩ := List.forall₂_cons_left_iff.1 hrest
  have hwords := hbuilds.code
  rw [hiss, List.flatten_append, List.flatten_cons, List.zipIdx_append,
    List.zipIdx_append] at hwords
  obtain ⟨code, rest, hsplit, hcode, hrest⟩ := forall₂_append_left_iff.1 hwords
  obtain ⟨ws, code', rfl, hws, -⟩ := forall₂_append_left_iff.1 hrest
  have hlength : iss.flatten.length = code.length := by
    rw [← hcode.length_eq, List.length_zipIdx]
  have hcount : iss.flatten.length = wordsIn before := by
    rw [List.length_flatten, map_length_of_gives hfront, List.map_map]
    rfl
  rw [Nat.zero_add, hlength] at hws
  refine ⟨is, code, ws, code', his, ?_, hlength.symm.trans hcount, hws⟩
  rw [hsplit, List.append_assoc]

theorem Describes.labelAt_le (h : o.Describes ss) (hbuilds : o.Builds image)
    (hname : o.LabelAt name n) : n ≤ image.code.length := by
  obtain ⟨before, c, after, hlines, -, rfl⟩ := hname
  have hcount := hbuilds.code.length_eq
  rw [List.length_zipIdx, List.length_flatten, h.map_length_instructions, hlines, List.map_append,
    List.sum_append] at hcount
  omega

end Outline

/-- A translated source has an outline that builds its image. Its declarations tile the data segment
behind the ports, its lines of code come to the words of the code segment, and the symbol tables
hold the addresses of its variables and labels. -/
theorem translate_addresses {source : List Char} {image : Image}
    (h : translate source = .ok image) : ∃ o : Outline,
      o.Describes (statements source) ∧ o.Builds image ∧ o.Tiles image.data ∧
        o.instructions.map List.length = o.lines.map CodeLine.wordCount ∧
        (∀ name n, o.LabelAt name n → n ≤ image.code.length) ∧
        ∃ l, layout (statements source) = .ok l ∧
          (∀ name v, l.data.names.lookup name = some v ↔
            ∃ n, o.VariableAt name n ∧ v = Int64.ofNat n) ∧
          ∀ name v, l.code.labels.lookup name = some v ↔
            ∃ n, o.LabelAt name n ∧ v = Int64.ofNat n := by
  obtain ⟨o, ho, hbuilds⟩ := translate_eq_ok_iff.1 h
  have hlabels : ∀ name n, o.LabelAt name n → n ≤ image.code.length :=
    fun _ _ => ho.labelAt_le hbuilds
  have hlayout := layout_eq_ok_iff.2 ⟨o, ho, rfl⟩
  exact ⟨o, ho, hbuilds, hbuilds.tiles, ho.map_length_instructions, hlabels, _, hlayout,
    fun _ _ => ho.names_lookup, fun _ _ => ho.labels_lookup⟩

theorem translate_addresses_hidden : ∃ (o : Outline) (image : Image) (source : List Char),
    source = (".data\nSTRING s \"é\"\nBUFFER b 2\nNUMBER e 7\n" ++
      ".code\njmp e\nlinear r1 2 r2 b r3\ne:").toList ∧
    o.Describes (statements source) ∧ o.Builds image ∧ o.Tiles image.data ∧
    image.data.length = 7 ∧ image.code = [⟨0, .jmp, [3]⟩, ⟨1, .linear, [0, 2, 1]⟩,
      ⟨2, .linearCont, [0, 4, 2]⟩] ∧
    (∃ n, o.LabelAt ['e'] n ∧ 3 = Int64.ofNat n) ∧
    ∃ n, o.VariableAt ['e'] n ∧ 6 = Int64.ofNat n := by
  have h : translate (".data\nSTRING s \"é\"\nBUFFER b 2\nNUMBER e 7\n" ++
      ".code\njmp e\nlinear r1 2 r2 b r3\ne:").toList =
      .ok ⟨[⟨0, .number, [1234]⟩, ⟨1, .number, [1234]⟩, ⟨2, .string, [233]⟩, ⟨3, .string, [0]⟩,
          ⟨4, .buffer, [0]⟩, ⟨5, .buffer, [0]⟩, ⟨6, .number, [7]⟩],
        [⟨0, .jmp, [3]⟩, ⟨1, .linear, [0, 2, 1]⟩, ⟨2, .linearCont, [0, 4, 2]⟩]⟩ := rfl
  obtain ⟨o, ho, hbuilds, htiles, -, -, l, hl, hnames, hlabels⟩ := translate_addresses h
  obtain rfl := Except.ok.inj hl
  exact ⟨o, _, _, rfl, ho, hbuilds, htiles, rfl, rfl, (hlabels _ _).1 rfl, (hnames _ _).1 rfl⟩

/-! ### Sections that take turns -/

theorem Outline.Describes.reordered {o : Outline} {ss' : List Statement} (h : o.Describes ss)
    (hplaced : ∀ s ∈ ss', s.place ≠ none) (hdata : textsIn .data ss = textsIn .data ss')
    (hcode : textsIn .code ss = textsIn .code ss') : o.Describes ss' where
  placed := hplaced
  declared := hdata ▸ h.declared
  names := h.names
  lines := hcode ▸ h.lines
  instructions := h.instructions
  labels := h.labels

/-- Only the order inside each kind of section matters: where the sections are cut and how they take
turns makes no difference to the image, nor to whether there is one. -/
theorem translate_reordered {source source' : List Char}
    (hplaced : ∀ s ∈ statements source, s.place ≠ none)
    (hplaced' : ∀ s ∈ statements source', s.place ≠ none)
    (hdata : textsIn .data (statements source) = textsIn .data (statements source'))
    (hcode : textsIn .code (statements source) = textsIn .code (statements source')) :
    (∃ image, translate source = .ok image ∧ translate source' = .ok image) ∨
      ∃ fault fault', translate source = .error fault ∧ translate source' = .error fault' := by
  have hsame (image : Image) : translate source = .ok image ↔ translate source' = .ok image := by
    rw [translate_eq_ok_iff, translate_eq_ok_iff]
    refine exists_congr fun o => and_congr_left fun _ => ?_
    constructor
    · exact fun ho => ho.reordered hplaced' hdata hcode
    · exact fun ho => ho.reordered hplaced hdata.symm hcode.symm
  cases htranslate : translate source with
  | ok image => exact .inl ⟨image, rfl, (hsame image).1 htranslate⟩
  | error fault =>
    cases htranslate' : translate source' with
    | ok image =>
      rw [(hsame image).2 htranslate'] at htranslate
      cases htranslate
    | error fault' => exact .inr ⟨fault, fault', rfl, rfl⟩

theorem translate_reordered_turns : ∃ image,
    translate ".code\njmp e\n.data\nNUMBER a 1\n.code\ne:\nload_v r1, a".toList = .ok image ∧
    translate ".data\nNUMBER a 1 ; one\n.code\njmp e\n\ne:\nload_v r1, a\n".toList = .ok image := by
  have hplaced : ∀ s ∈ statements
      ".code\njmp e\n.data\nNUMBER a 1\n.code\ne:\nload_v r1, a".toList, s.place ≠ none := by
    decide +kernel
  have hplaced' : ∀ s ∈ statements
      ".data\nNUMBER a 1 ; one\n.code\njmp e\n\ne:\nload_v r1, a\n".toList, s.place ≠ none := by
    decide +kernel
  have hfirst : translate
      ".code\njmp e\n.data\nNUMBER a 1\n.code\ne:\nload_v r1, a".toList =
      .ok ⟨[⟨0, .number, [1234]⟩, ⟨1, .number, [1234]⟩, ⟨2, .number, [1]⟩],
        [⟨0, .jmp, [1]⟩, ⟨1, .loadV, [0, 2]⟩]⟩ := rfl
  have htexts (part : Section) : textsIn part (statements
      ".code\njmp e\n.data\nNUMBER a 1\n.code\ne:\nload_v r1, a".toList) = textsIn part (statements
      ".data\nNUMBER a 1 ; one\n.code\njmp e\n\ne:\nload_v r1, a\n".toList) := by
    cases part <;> decide +kernel
  obtain h | ⟨fault, -, h, -⟩ := translate_reordered hplaced hplaced' (htexts .data) (htexts .code)
  · exact h
  · rw [hfirst] at h
    cases h

end TickMachine.Assembly
