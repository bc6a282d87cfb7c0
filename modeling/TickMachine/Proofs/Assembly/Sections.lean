import TickMachine.Proofs.Assembly.Outline

/-! The two kinds of section. Data statements and code statements are laid out apart from each
other, so a layout is a pass over the ones and a pass over the others, however they take turns in
the source. -/

namespace TickMachine.Assembly

def statementsIn (part : Section) (ss : List Statement) : List Statement :=
  ss.filter (·.place = some part)

def textsIn (part : Section) (ss : List Statement) : List (List Char) :=
  (statementsIn part ss).map Statement.text

def CodeLayout.placeStatement (l : CodeLayout) (s : Statement) : Except Cause CodeLayout :=
  l.place s.line s.text

variable {l l' : Layout} {s : Statement} {ss : List Statement} {data : DataLayout}
  {code : CodeLayout}

theorem textsIn_append_cons {part : Section} {before after : List Statement}
    (h : s.place = some part) : textsIn part (before ++ s :: after) =
      textsIn part before ++ s.text :: textsIn part after := by
  simp [textsIn, statementsIn, h]

theorem Layout.place_data (h : s.place = some .data) :
    l.place s = (l.data.declare s.text >>= fun data => .ok { l with data }).mapError
      (Fault.mk s.line) := by
  simp only [place, h]
  rfl

theorem Layout.place_code (h : s.place = some .code) :
    l.place s = (l.code.placeStatement s >>= fun code => .ok { l with code }).mapError
      (Fault.mk s.line) := by
  simp only [place, h]
  rfl

theorem Layout.place_outside (h : s.place = none) :
    l.place s = .error ⟨s.line, .noSection⟩ := by
  simp only [place, h]
  rfl

theorem Layout.place_data_eq_ok_iff (h : s.place = some .data) : l.place s = .ok l' ↔
    ∃ data, l.data.declare s.text = .ok data ∧ ⟨data, l.code⟩ = l' := by
  rw [place_data h, mapError_eq_ok_iff, except_bind_eq_ok_iff]
  simp only [Except.ok.injEq]

theorem Layout.place_code_eq_ok_iff (h : s.place = some .code) : l.place s = .ok l' ↔
    ∃ code, l.code.placeStatement s = .ok code ∧ ⟨l.data, code⟩ = l' := by
  rw [place_code h, mapError_eq_ok_iff, except_bind_eq_ok_iff]
  simp only [Except.ok.injEq]

theorem foldlM_place_eq_ok_iff : ss.foldlM Layout.place l = .ok l' ↔
    (∀ s ∈ ss, s.place ≠ none) ∧
      (textsIn .data ss).foldlM DataLayout.declare l.data = .ok l'.data ∧
      (statementsIn .code ss).foldlM CodeLayout.placeStatement l.code = .ok l'.code := by
  induction ss generalizing l with
  | nil =>
    obtain ⟨data, code⟩ := l
    obtain ⟨data', code'⟩ := l'
    simp [textsIn, statementsIn, pure, Except.pure]
  | cons s ss ih =>
    rw [List.foldlM_cons, except_bind_eq_ok_iff, List.forall_mem_cons]
    cases hplace : s.place with
    | none => simp [Layout.place_outside hplace]
    | some part =>
      cases part with
      | data =>
        have htexts : textsIn .data (s :: ss) = s.text :: textsIn .data ss := by
          simp [textsIn, statementsIn, hplace]
        have hothers : statementsIn .code (s :: ss) = statementsIn .code ss := by
          simp [statementsIn, hplace]
        rw [htexts, hothers, List.foldlM_cons, except_bind_eq_ok_iff]
        simp only [Layout.place_data_eq_ok_iff hplace, ih]
        constructor
        · rintro ⟨_, ⟨data, hs, rfl⟩, hall, hdata, hcode⟩
          exact ⟨⟨nofun, hall⟩, ⟨data, hs, hdata⟩, hcode⟩
        · rintro ⟨⟨-, hall⟩, ⟨data, hs, hdata⟩, hcode⟩
          exact ⟨_, ⟨data, hs, rfl⟩, hall, hdata, hcode⟩
      | code =>
        have htexts : textsIn .data (s :: ss) = textsIn .data ss := by
          simp [textsIn, statementsIn, hplace]
        have hothers : statementsIn .code (s :: ss) = s :: statementsIn .code ss := by
          simp [statementsIn, hplace]
        rw [htexts, hothers, List.foldlM_cons, except_bind_eq_ok_iff]
        simp only [Layout.place_code_eq_ok_iff hplace, ih]
        constructor
        · rintro ⟨_, ⟨code, hs, rfl⟩, hall, hdata, hcode⟩
          exact ⟨⟨nofun, hall⟩, hdata, code, hs, hcode⟩
        · rintro ⟨⟨-, hall⟩, hdata, code, hs, hcode⟩
          exact ⟨_, ⟨code, hs, rfl⟩, hall, hdata, hcode⟩

end TickMachine.Assembly
