import TickMachine.CommandLine.Execute
import TickMachine.Proofs.Except
import TickMachine.Proofs.Text.Joined

/-! Reading after writing. A file that was written in the directory has the new text and every other
one its old text, because no name on the way to a file loses its meaning when a file is put. -/

namespace TickMachine.CommandLine

def lastName (text : String) : String := (route text).names.getLast?.getD "."

namespace Directory

variable {d d' : Directory} {path w : Path} {place place' : Place} {name last text source : String}
  {content : Content} {files : List (Path × Content)}

theorem lookup_cons_eq (key other : Path) : List.lookup other ((key, content) :: files) =
    if other = key then some content else files.lookup other := by
  by_cases h : other = key
  · subst h
    simp
  · have hne : (other == key) = false := beq_false_of_ne h
    simp [List.lookup_cons, hne, h]

theorem lookup_put (other : Path) : (put w content files).lookup other =
    if other = w then some content else files.lookup other := by
  induction files with
  | nil => exact lookup_cons_eq w other
  | cons f files ih =>
    obtain ⟨key, old⟩ := f
    rw [put, lookup_cons_eq]
    split
    · next hkey =>
      subst hkey
      rw [lookup_cons_eq]
      split <;> rfl
    · next hkey =>
      rw [lookup_cons_eq, ih]
      split
      · next ho => rw [ho, if_neg hkey]
      · rfl

theorem any_put {p : Path → Bool} (h : files.any fun f => p f.1) :
    (put w content files).any fun f => p f.1 := by
  induction files with
  | nil => cases h
  | cons f files ih =>
    obtain ⟨key, old⟩ := f
    rw [List.any_cons, Bool.or_eq_true] at h
    rw [put]
    split
    · next hkey =>
      subst hkey
      rwa [List.any_cons, Bool.or_eq_true]
    · rw [List.any_cons, Bool.or_eq_true]
      exact h.imp_right ih

def after (d : Directory) (w : Path) (text : String) : Directory := ⟨put w (.text text) d.files⟩

theorem lookup_after_self : (d.after w text).lookup w = .file (.text text) := by
  rw [lookup, after, lookup_put, if_pos rfl]

theorem lookup_after_file (h : d.lookup path = .file content) (hne : path ≠ w) :
    (d.after w text).lookup path = .file content := by
  rw [lookup] at h ⊢
  rw [after, lookup_put, if_neg hne]
  cases hfile : d.files.lookup path with
  | some old => rwa [hfile] at h
  | none =>
    rw [hfile] at h
    dsimp only at h
    split at h <;> cases h

theorem lookup_after_directory (hw : d.lookup w ≠ .directory) (h : d.lookup path = .directory) :
    (d.after w text).lookup path = .directory := by
  have hne : path ≠ w := fun he => hw (he ▸ h)
  rw [lookup] at h ⊢
  rw [after, lookup_put, if_neg hne]
  cases hfile : d.files.lookup path with
  | some old =>
    rw [hfile] at h
    cases h
  | none =>
    rw [hfile] at h
    dsimp only at h ⊢
    split at h
    · next hdir =>
      refine if_pos ?_
      rw [isDirectory, Bool.or_eq_true] at hdir ⊢
      exact hdir.imp_right (any_put (p := fun other => path.isPrefixOf other && path != other))
    · cases h

theorem find_inside {found : Found} (h : d.find (.inside path) name = .ok found)
    (hfound : found ≠ .directory) : d.lookup (path ++ [name]) = found ∧
      ∀ d' : Directory, d'.find (.inside path) name = .ok (d'.lookup (path ++ [name])) := by
  unfold find at h
  split at h
  · exact absurd (Except.ok.inj h).symm hfound
  · next hdots =>
    split at h
    · cases h
    · next hlen =>
      refine ⟨Except.ok.inj h, fun d' => ?_⟩
      unfold find
      rw [if_neg hdots, if_neg hlen]

theorem find_outside {found : Found} (h : d.find .outside name = .ok found) :
    found = .directory ∨ found = .nothing := by
  unfold find at h
  split at h
  · exact .inl (Except.ok.inj h).symm
  · split at h
    · cases h
    · exact .inr (Except.ok.inj h).symm

theorem find_after_directory (hw : d.lookup w ≠ .directory)
    (h : d.find place name = .ok .directory) :
    (d.after w text).find place name = .ok .directory := by
  unfold find at h ⊢
  split
  · rfl
  · next hdots =>
    rw [if_neg hdots] at h
    split
    · next hlen => rw [if_pos hlen] at h; cases h
    · next hlen =>
      rw [if_neg hlen] at h
      cases place with
      | outside => cases h
      | inside path => exact congrArg Except.ok (lookup_after_directory hw (Except.ok.inj h))

theorem enter_eq_ok_iff : d.enter place name = .ok place' ↔
    d.find place name = .ok .directory ∧ place.child name = place' := by
  rw [enter, except_bind_eq_ok_iff]
  constructor
  · rintro ⟨found, hfind, h⟩
    cases found with
    | directory => exact ⟨hfind, Except.ok.inj h⟩
    | file content => cases h
    | nothing => cases h
  · rintro ⟨hfind, rfl⟩
    exact ⟨_, hfind, rfl⟩

theorem approach_eq_ok_iff : d.approach name = .ok (place, last) ↔
    name.utf8ByteSize ≤ maxPathBytes ∧ name ≠ "" ∧ lastName name = last ∧
      (route name).names.dropLast.foldlM d.enter (route name).start = .ok place := by
  unfold approach lastName
  dsimp only
  split
  · next hlen => simp [Nat.not_le.2 hlen]
  · next hlen =>
    rw [Nat.not_lt] at hlen
    split
    · next hnone =>
      have hnames : (route name).names = [] := List.getLast?_eq_none_iff.1 hnone
      by_cases hempty : name = ""
      · simp [hempty]
      · simp [hempty, hlen, hnames, pure, Except.pure, and_comm]
    · next name' hlast =>
      have hempty : name ≠ "" := by
        rintro rfl
        cases hlast
      have hname : (∃ place', (route name).names.dropLast.foldlM d.enter (route name).start =
          .ok place' ∧ (place', name') = (place, last)) ↔ name' = last ∧
          (route name).names.dropLast.foldlM d.enter (route name).start = .ok place := by
        simp only [Prod.mk.injEq]
        exact ⟨by rintro ⟨_, h, rfl, rfl⟩; exact ⟨rfl, h⟩, fun ⟨hl, h⟩ => ⟨place, h, rfl, hl⟩⟩
      simp [hempty, hlen, hlast, except_bind_eq_ok_iff, pure, Except.pure, ← hname]

theorem approach_after (hw : d.lookup w ≠ .directory) (h : d.approach name = .ok (place, last)) :
    (d.after w text).approach name = .ok (place, last) := by
  rw [approach_eq_ok_iff] at h ⊢
  obtain ⟨hlen, hne, hlast, hfold⟩ := h
  refine ⟨hlen, hne, hlast, foldlM_carries (fun s x s' hx => ?_) hfold⟩
  rw [enter_eq_ok_iff] at hx ⊢
  exact hx.imp_left (find_after_directory hw)

theorem read_eq_ok_iff : d.read name = .ok text ↔ (route name).isClosed = false ∧
    ∃ place last, d.approach name = .ok (place, last) ∧
      d.find place last = .ok (.file (.text text)) := by
  unfold read
  simp only [except_bind_eq_ok_iff]
  constructor
  · rintro ⟨⟨place, last⟩, happroach, found, hfind, h⟩
    cases found with
    | directory => cases h
    | nothing => cases h
    | file content =>
      cases hclosed : (route name).isClosed with
      | true =>
        rw [hclosed] at h
        cases h
      | false =>
        rw [hclosed] at h
        cases content with
        | binary bytes => cases h
        | text text' =>
          obtain rfl : text' = text := Except.ok.inj h
          exact ⟨rfl, place, last, happroach, hfind⟩
  · rintro ⟨hclosed, place, last, happroach, hfind⟩
    refine ⟨(place, last), happroach, _, hfind, ?_⟩
    rw [hclosed]
    rfl

theorem write_cases (h : d.write name text = .ok d') :
    (d' = d ∧ ∃ last, d.approach name = .ok (.outside, last)) ∨
    ∃ path last, d' = d.after (path ++ [last]) text ∧ (route name).isClosed = false ∧
      d.approach name = .ok (.inside path, last) ∧ d.lookup (path ++ [last]) ≠ .directory ∧
      ∀ d' : Directory, d'.find (.inside path) last = .ok (d'.lookup (path ++ [last])) := by
  unfold write at h
  simp only [except_bind_eq_ok_iff] at h
  obtain ⟨⟨place, last⟩, happroach, h⟩ := h
  cases hclosed : (route name).isClosed with
  | true =>
    rw [hclosed] at h
    cases h
  | false =>
    rw [hclosed] at h
    obtain ⟨found, hfind, h⟩ := except_bind_eq_ok_iff.1 h
    cases place with
    | outside =>
      cases found with
      | directory => cases h
      | nothing => exact .inl ⟨(Except.ok.inj h).symm, last, happroach⟩
      | file content => exact .inl ⟨(Except.ok.inj h).symm, last, happroach⟩
    | inside path =>
      have hfound : found ≠ .directory := by
        rintro rfl
        cases h
      obtain ⟨hlookup, hall⟩ := find_inside hfind hfound
      refine .inr ⟨path, last, ?_, rfl, happroach, by rwa [hlookup], hall⟩
      cases found with
      | directory => cases h
      | nothing => exact (Except.ok.inj h).symm
      | file content => exact (Except.ok.inj h).symm

/-- Whether what is written by a name can be read back by it. -/
def Returns (d : Directory) (name : String) : Prop :=
  ∀ text d', d.write name text = .ok d' → d'.read name = .ok text

theorem returns_of_approach (h : d.approach name = .ok (.inside path, last)) : d.Returns name := by
  intro text d' hwrite
  rcases write_cases hwrite with ⟨-, last', hout⟩ | ⟨path', last', rfl, hclosed, hin, hdir, hall⟩
  · rw [h] at hout
    cases hout
  · refine read_eq_ok_iff.2 ⟨hclosed, _, last', approach_after hdir hin, ?_⟩
    rw [hall, lookup_after_self]

theorem read_of_write {other : String} (hwrite : d.write name text = .ok d')
    (hread : d.read other = .ok source) (hne : lastName other ≠ lastName name) :
    d'.read other = .ok source := by
  rcases write_cases hwrite with ⟨rfl, -⟩ | ⟨path, last, rfl, -, hname, hdir, -⟩
  · exact hread
  · rw [read_eq_ok_iff] at hread ⊢
    obtain ⟨hclosed, place, last', hother, hfind⟩ := hread
    refine ⟨hclosed, place, last', approach_after hdir hother, ?_⟩
    have hlast : last' ≠ last := by
      rw [← (approach_eq_ok_iff.1 hother).2.2.1, ← (approach_eq_ok_iff.1 hname).2.2.1]
      exact hne
    cases place with
    | outside => exact absurd (find_outside hfind) (by simp)
    | inside path' =>
      obtain ⟨hlookup, hall⟩ := find_inside hfind (by simp)
      have hpath : path' ++ [last'] ≠ path ++ [last] := fun he =>
        hlast (List.append_inj_right' he rfl |> List.singleton_inj.1)
      rw [hall, lookup_after_file hlookup hpath]

end Directory

section Paths

variable {path source : String} {text : List Char} {c : Char}

def storedPath (source : String) : String := String.ofList (imagePath source.toList)

theorem imagePath_append (text : List Char) : imagePath (text ++ ['.', 'a', 's', 'm']) =
    imagePath text ++ ['.', 'j', 's', 'o', 'n'] := by
  fun_induction imagePath text with
  | case1 rest ih => simp [imagePath, ih]
  | case2 c rest hno ih =>
    -- The ending does not reach into an occurrence that begins in front of it.
    rw [List.cons_append, imagePath, ih, List.cons_append]
    rintro rest' rfl hrest
    rcases rest with _ | ⟨x, _ | ⟨y, _ | ⟨z, rest⟩⟩⟩
    · simp at hrest
    · simp at hrest
    · simp at hrest
    · simp only [List.cons_append, List.cons.injEq] at hrest
      obtain ⟨rfl, rfl, rfl, -⟩ := hrest
      exact hno rest rfl rfl
  | case3 => rfl

theorem isSourcePath_iff : isSourcePath path ↔
    ∃ text, path.toList = text ++ ['.', 'a', 's', 'm'] := by
  rw [isSourcePath, List.isSuffixOf_iff_suffix]
  exact ⟨fun ⟨text, h⟩ => ⟨text, h.symm⟩, fun ⟨text, h⟩ => ⟨text, h.symm⟩⟩

theorem getLast?_source (h : isSourcePath source) : source.toList.getLast? = some 'm' := by
  obtain ⟨text, htext⟩ := isSourcePath_iff.1 h
  rw [htext, List.getLast?_append]
  rfl

theorem getLast?_storedPath (h : isSourcePath source) :
    (storedPath source).toList.getLast? = some 'n' := by
  obtain ⟨text, htext⟩ := isSourcePath_iff.1 h
  rw [storedPath, String.toList_ofList, htext, imagePath_append, List.getLast?_append]
  rfl

theorem isSourcePath_storedPath (h : isSourcePath source) :
    isSourcePath (storedPath source) = false := by
  apply Bool.eq_false_iff.2
  intro htarget
  have hlast := getLast?_source htarget
  rw [getLast?_storedPath h] at hlast
  cases hlast

theorem getLast?_lastName (h : path.toList.getLast? = some c) (hc : c ≠ '/') :
    (lastName path).toList.getLast? = some c := by
  obtain ⟨piece, hpiece, hlast⟩ := Text.getLast?_splitOn h (p := (· == '/')) (beq_false_of_ne hc)
  have hne : String.ofList piece ≠ "" := by
    intro he
    rw [String.ofList_eq_empty_iff] at he
    rw [he] at hlast
    cases hlast
  obtain ⟨pieces, hpieces⟩ := List.getLast?_eq_some_iff.1 hpiece
  have hnames : (route path).names.getLast? = some (String.ofList piece) := by
    simp [route, hpieces, hne]
  rw [lastName, hnames, Option.getD_some, String.toList_ofList, hlast]

theorem lastName_storedPath_ne (h : isSourcePath source) :
    lastName source ≠ lastName (storedPath source) := by
  intro he
  have hsource := getLast?_lastName (getLast?_source h) (by decide)
  have htarget := getLast?_lastName (getLast?_storedPath h) (by decide)
  rw [he, htarget] at hsource
  cases hsource

end Paths
end TickMachine.CommandLine
