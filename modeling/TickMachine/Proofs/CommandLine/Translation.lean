import TickMachine.Proofs.Agreement

/-! What a translation does to a directory. The path of the image is that of the source with another
name at every place, so that it leads to one file of the directory; it is the source itself where
no name on the way to it is changed. -/

namespace TickMachine.CommandLine

variable {text : List Char} {name name' source : String}

/-! ### Names and routes -/

theorem prefix_of_splitOn {p : Char → Bool} {piece : List Char} {pieces : List (List Char)}
    (h : Text.splitOn p text = piece :: pieces) : piece <+: text := by
  induction text generalizing piece pieces with
  | nil =>
    obtain ⟨rfl, -⟩ := List.cons.inj h
    exact List.prefix_refl _
  | cons c text ih =>
    rw [Text.splitOn] at h
    split at h
    · obtain ⟨rfl, -⟩ := List.cons.inj h
      exact List.nil_prefix
    · split at h
      · next hnil => exact absurd hnil (Text.splitOn_ne_nil p text)
      · next first others hsplit =>
        obtain ⟨rfl, -⟩ := List.cons.inj h
        exact (List.prefix_cons_inj c).2 (ih hsplit)

theorem splitOn_imagePath (text : List Char) :
    Text.splitOn (· == '/') (imagePath text) = (Text.splitOn (· == '/') text).map imagePath := by
  fun_induction imagePath text with
  | case1 rest ih =>
    obtain ⟨piece, pieces, hsplit⟩ :=
      List.exists_cons_of_ne_nil (Text.splitOn_ne_nil (· == '/') rest)
    rw [hsplit] at ih
    simp [Text.splitOn, hsplit, ih, imagePath]
  | case2 c rest hno ih =>
    obtain ⟨piece, pieces, hsplit⟩ :=
      List.exists_cons_of_ne_nil (Text.splitOn_ne_nil (· == '/') rest)
    rw [Text.splitOn, Text.splitOn, ih]
    by_cases hc : c = '/'
    · subst hc
      rfl
    · have hpiece : imagePath (c :: piece) = c :: imagePath piece := by
        rw [imagePath]
        rintro tail rfl rfl
        obtain ⟨others, hrest⟩ := prefix_of_splitOn hsplit
        exact hno (tail ++ others) rfl hrest.symm
      simp [hc, hsplit, hpiece]
  | case3 => rfl

theorem head?_imagePath (text : List Char) : (imagePath text).head? = text.head? := by
  fun_cases imagePath text <;> rfl

theorem imagePath_eq_self_or (text : List Char) :
    imagePath text = text ∨ 4 < (imagePath text).length := by
  fun_induction imagePath text with
  | case1 rest ih => exact .inr (by simp)
  | case2 c rest hno ih =>
    rcases ih with h | h
    · exact .inl (by rw [h])
    · exact .inr (Nat.lt_succ_of_lt h)
  | case3 => exact .inl rfl

theorem imagePath_eq_self_iff : imagePath text = text ↔ ¬ ['.', 'a', 's', 'm'] <:+: text := by
  fun_induction imagePath text with
  | case1 rest ih =>
    refine iff_of_false (by simp) (not_not.2 ?_)
    exact (List.prefix_append ['.', 'a', 's', 'm'] rest).isInfix
  | case2 c rest hno ih =>
    have hfirst : ¬ ['.', 'a', 's', 'm'] <+: c :: rest := by
      rintro ⟨tail, htail⟩
      obtain ⟨rfl, rfl⟩ := List.cons.inj htail
      exact hno tail rfl rfl
    rw [List.infix_cons_iff, not_or, ← ih, List.cons.injEq]
    exact ⟨fun h => ⟨hfirst, h.2⟩, fun h => ⟨rfl, h.2⟩⟩
  | case3 => exact iff_of_true rfl (by simp)

theorem storedPath_eq_self_iff :
    storedPath name = name ↔ ¬ ['.', 'a', 's', 'm'] <:+: name.toList := by
  rw [storedPath, ← String.toList_inj, String.toList_ofList, imagePath_eq_self_iff]

theorem storedPath_eq_iff_of_length_le (h : name'.length ≤ 4) (hself : storedPath name' = name') :
    storedPath name = name' ↔ name = name' := by
  refine ⟨fun he => ?_, fun he => he ▸ hself⟩
  rw [storedPath, ← String.toList_inj, String.toList_ofList] at he
  rcases imagePath_eq_self_or name.toList with hsame | hlong
  · exact String.toList_inj.1 (hsame.symm.trans he)
  · rw [he, String.length_toList] at hlong
    omega

theorem names_storedPath (source : String) :
    (route (storedPath source)).names = (route source).names.map storedPath := by
  have hnames : ∀ text, (route text).names =
      ((Text.splitOn (· == '/') text.toList).map String.ofList).filter (· ≠ "") := fun _ => rfl
  have hstored : String.ofList ∘ imagePath = storedPath ∘ String.ofList := by
    funext piece
    simp [storedPath]
  rw [hnames, hnames, storedPath, String.toList_ofList, splitOn_imagePath, List.map_map, hstored,
    ← List.map_map, List.filter_map]
  congr 1
  refine List.filter_congr fun name _ => decide_eq_decide.2 ?_
  exact not_congr (storedPath_eq_iff_of_length_le (by decide) rfl)

theorem start_storedPath (source : String) :
    (route (storedPath source)).start = (route source).start := by
  rw [route, route, storedPath, String.toList_ofList, head?_imagePath]

theorem lastName_storedPath (source : String) :
    lastName (storedPath source) = storedPath (lastName source) := by
  rw [lastName, lastName, names_storedPath, List.getLast?_map]
  cases (route source).names.getLast? <;> rfl

/-! ### Places -/

def Place.stored : Place → Place
  | .inside path => .inside (path.map storedPath)
  | .outside => .outside

theorem Place.child_stored (place : Place) (name : String) :
    place.stored.child (storedPath name) = (place.child name).stored := by
  have hdot : storedPath name = "." ↔ name = "." :=
    storedPath_eq_iff_of_length_le (by decide) rfl
  have hdots : storedPath name = ".." ↔ name = ".." :=
    storedPath_eq_iff_of_length_le (by decide) rfl
  unfold Place.child
  rw [if_congr hdot rfl rfl]
  split
  · rfl
  · cases place with
    | outside => rfl
    | inside path =>
      simp only [stored, hdots, List.isEmpty_map]
      split
      · split
        · rfl
        · exact congrArg inside List.map_dropLast.symm
      · simp only [List.map_append, List.map_cons, List.map_nil]

theorem foldl_child_stored (names : List String) (place : Place) :
    (names.map storedPath).foldl Place.child place.stored =
      (names.foldl Place.child place).stored := by
  induction names generalizing place with
  | nil => rfl
  | cons name names ih =>
    rw [List.map_cons, List.foldl_cons, List.foldl_cons, Place.child_stored, ih]

namespace Directory

variable {d d' : Directory} {place : Place} {path : Path} {content : Content} {text : String}

theorem foldl_child_of_enter {names : List String} {start : Place}
    (h : names.foldlM d.enter start = .ok place) : names.foldl Place.child start = place := by
  induction names generalizing start with
  | nil => exact Except.ok.inj h
  | cons name names ih =>
    rw [List.foldlM_cons, except_bind_eq_ok_iff] at h
    obtain ⟨place₁, hfirst, hrest⟩ := h
    rw [List.foldl_cons, (enter_eq_ok_iff.1 hfirst).2]
    exact ih hrest

def Leads (d : Directory) (name : String) (path : Path) : Prop :=
  ∃ place last, d.approach name = .ok (.inside place, last) ∧ place ++ [last] = path

theorem lookup_eq_file_iff :
    d.lookup path = .file content ↔ d.files.lookup path = some content := by
  rw [lookup]
  cases d.files.lookup path with
  | some old => simp
  | none =>
    refine iff_of_false ?_ (by simp)
    dsimp only
    split <;> simp

theorem leads_of_read (h : d.read name = .ok text) :
    ∃ path, d.Leads name path ∧ d.files.lookup path = some (.text text) := by
  obtain ⟨-, place, last, happroach, hfind⟩ := read_eq_ok_iff.1 h
  cases place with
  | outside => exact absurd (find_outside hfind) (by simp)
  | inside place =>
    obtain ⟨hlookup, -⟩ := find_inside hfind (by simp)
    exact ⟨_, ⟨place, last, happroach, rfl⟩, lookup_eq_file_iff.1 hlookup⟩

theorem after_of_write (hsource : d.Leads source path)
    (h : d.write (storedPath source) text = .ok d') :
    d' = d.after (path.map storedPath) text := by
  obtain ⟨place, last, hsource, rfl⟩ := hsource
  obtain ⟨-, -, hlast, hplace⟩ := approach_eq_ok_iff.1 hsource
  have hplace := foldl_child_of_enter hplace
  have htarget : ∀ place' last', d.approach (storedPath source) = .ok (place', last') →
      place' = .inside (place.map storedPath) ∧ last' = storedPath last := by
    intro place' last' happroach
    obtain ⟨-, -, hlast', hplace'⟩ := approach_eq_ok_iff.1 happroach
    have hplace' := foldl_child_of_enter hplace'
    have hstart : (route source).start.stored = (route source).start := by
      rw [route]
      split <;> rfl
    rw [start_storedPath, names_storedPath, ← List.map_dropLast, ← hstart, foldl_child_stored,
      hplace] at hplace'
    rw [← hlast', lastName_storedPath, hlast]
    exact ⟨hplace'.symm, rfl⟩
  obtain ⟨-, last', hout⟩ | ⟨path', last', rfl, -, hin, -, -⟩ := write_cases h
  · cases (htarget _ _ hout).1
  · obtain ⟨hplace', rfl⟩ := htarget _ _ hin
    rw [Place.inside.inj hplace', List.map_append]
    rfl

end Directory

/-! ### The command -/

/-- What is in a directory after the translation of the file at `path`. -/
structure Translates (d d' : Directory) (path : Path) (text : String) (image : Image) : Prop where
  source : d.files.lookup path = some (.text text)
  translated : Assembly.translate text.toList = .ok image
  files : ∀ other, d'.files.lookup other =
    if other = path.map storedPath then some (.text image.render) else d.files.lookup other
  loads : image.data.length < UInt64.size → Image.read image.render.toList = .ok image

variable {d d' : Directory} {arguments : List String} {verbose : Bool} {o : Outcome} {path : Path}

theorem map_storedPath_eq_iff :
    path.map storedPath = path ↔ ∀ name ∈ path, ¬ ['.', 'a', 's', 'm'] <:+: name.toList := by
  have hmap : path.map storedPath = path.map id ↔ ∀ name ∈ path, storedPath name = name :=
    List.map_eq_map_iff
  rw [List.map_id] at hmap
  exact hmap.trans (forall₂_congr fun name _ => storedPath_eq_self_iff)

theorem translates_or_fails
    (hrequest : request arguments = .ok (.execute verbose (.translate source none)))
    (hperform : performIn d arguments = (o, d')) :
    o.exitCode = 1 ∧ d' = d ∨
      o.exitCode = 0 ∧ ∃ path text image,
        d.Leads source path ∧ Translates d d' path text image := by
  rw [performIn_of_request hrequest] at hperform
  obtain hfail | ⟨text, image, hexit, hread, himage, hwrite⟩ := translateFile_run hperform
  · exact .inl hfail
  · obtain ⟨path, hleads, hsource⟩ := Directory.leads_of_read hread
    obtain rfl := Directory.after_of_write hleads hwrite
    exact .inr ⟨hexit, path, text, image, hleads, hsource, himage,
      fun other => Directory.lookup_put other, read_render_of_translate himage⟩

/-- A translation that fails leaves all files as they are, and one that succeeds writes the image
to one file. The source is kept if there is a part to replace in a name on its path, and else the
file that is written is the source. -/
theorem translate_files
    (hrequest : request arguments = .ok (.execute verbose (.translate source none)))
    (hperform : performIn d arguments = (o, d')) :
    (o.exitCode ≠ 0 → d' = d) ∧
    (o.exitCode = 0 → ∃ path text image, d.Leads source path ∧ Translates d d' path text image ∧
      ((∃ name ∈ path, ['.', 'a', 's', 'm'] <:+: name.toList) →
        d'.files.lookup path = some (.text text)) ∧
      ((∀ name ∈ path, ¬ ['.', 'a', 's', 'm'] <:+: name.toList) →
        d'.files.lookup path = some (.text image.render))) := by
  obtain ⟨hexit, rfl⟩ | ⟨hexit, path, text, image, hleads, hresult⟩ :=
    translates_or_fails hrequest hperform
  · refine ⟨fun _ => rfl, fun h => ?_⟩
    rw [hexit] at h
    cases h
  · refine ⟨fun h => absurd hexit h, fun _ => ⟨path, text, image, hleads, hresult, ?_, ?_⟩⟩
    · rintro ⟨name, hmem, hpart⟩
      have hne : path ≠ path.map storedPath := fun he =>
        map_storedPath_eq_iff.1 he.symm name hmem hpart
      rw [hresult.files, if_neg hne, hresult.source]
    · intro hnone
      rw [hresult.files, if_pos (map_storedPath_eq_iff.2 hnone).symm]

theorem translate_files_source :
    let d := Directory.ofFiles [("p.asm", .text ".code\nhlt")]
    (∃ path text image, d.Leads "p.asm" path ∧
      Translates d (performIn d ["translate", "p.asm"]).2 path text image) ∧
    (performIn d ["translate", "q.asm"]).2 = d := by
  intro d
  have hrequest {source : String} (h : Spec.namesOption source = false) :
      request ["translate", source] = .ok (.execute false (.translate source none)) :=
    request_path .translate h
  have hexit : (performIn d ["translate", "p.asm"]).1.exitCode = 0 := by
    rw [performIn_of_request (hrequest rfl)]
    rfl
  have hfail : (performIn d ["translate", "q.asm"]).1.exitCode ≠ 0 := by
    rw [performIn_of_request (hrequest rfl)]
    decide
  obtain ⟨path, text, image, hleads, hresult, -⟩ := (translate_files (hrequest rfl) rfl).2 hexit
  exact ⟨⟨path, text, image, hleads, hresult⟩, (translate_files (hrequest rfl) rfl).1 hfail⟩

theorem head?_render (image : Image) : image.render.toList.head? = some '[' := by
  rw [Image.render, String.toList_ofList]
  rfl

/-- A source whose name has no part to replace is gone. -/
theorem translate_files_overwritten :
    let d := Directory.ofFiles [("p.txt", .text ".code\nhlt")]
    (performIn d ["translate", "p.txt"]).1.exitCode = 0 ∧
    d.files.lookup ["p.txt"] = some (.text ".code\nhlt") ∧
    (performIn d ["translate", "p.txt"]).2.files.lookup ["p.txt"] ≠
      some (.text ".code\nhlt") := by
  intro d
  have hrequest : request ["translate", "p.txt"] = .ok (.execute false (.translate "p.txt" none)) :=
    request_path .translate rfl
  have hexit : (performIn d ["translate", "p.txt"]).1.exitCode = 0 := by
    rw [performIn_of_request hrequest]
    rfl
  refine ⟨hexit, rfl, fun hkept => ?_⟩
  generalize hperform : performIn d ["translate", "p.txt"] = result at hexit hkept
  obtain ⟨hfail, -⟩ | ⟨-, path, text, image, ⟨place, last, happroach, rfl⟩, hresult⟩ :=
    translates_or_fails hrequest hperform
  · rw [hexit] at hfail
    cases hfail
  · have hhere : d.approach "p.txt" = .ok (.inside [], "p.txt") := rfl
    rw [hhere] at happroach
    obtain ⟨rfl, rfl⟩ : [] = place ∧ "p.txt" = last := by simpa using happroach
    have hsame : ["p.txt"] = List.map storedPath ["p.txt"] := rfl
    have himage := hresult.files ["p.txt"]
    rw [hkept, List.nil_append, if_pos hsame] at himage
    have hfirst := head?_render image
    rw [← Content.text.inj (Option.some.inj himage)] at hfirst
    cases hfirst

end TickMachine.CommandLine
