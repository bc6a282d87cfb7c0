import TickMachine.DataPath.Basic

/-! Output codes as text, code by code. -/

namespace TickMachine.DataPath

/-- The text shows these codes: those below 256 as characters and all others as numerals. -/
inductive Renders : List Int64 → List Char → Prop
  | nil : Renders [] []
  | character {code : Int64} {c : Char} {codes : List Int64} {text : List Char}
      (hcode : code.toInt = c.toNat) (hc : c.toNat < 256) (h : Renders codes text) :
      Renders (code :: codes) (c :: text)
  | numeral {code : Int64} {codes : List Int64} {text : List Char}
      (hcode : code.toInt < 0 ∨ 256 ≤ code.toInt) (h : Renders codes text) :
      Renders (code :: codes) ((toString code.toInt).toList ++ text)

variable {code : Int64} {codes : List Int64} {text : List Char} {c : Char}

theorem toList_renderOutput_cons (code : Int64) (codes : List Int64) :
    (renderOutput (code :: codes)).toList =
      (renderCode code).toList ++ (renderOutput codes).toList := by
  simp [renderOutput]

theorem renderCode_of_character (hcode : code.toInt = c.toNat) (hc : c.toNat < 256) :
    renderCode code = String.singleton c := by
  have hrange : 0 ≤ code.toInt ∧ code.toInt < 256 := by omega
  rw [renderCode, if_pos hrange, hcode, Int.toNat_natCast, Char.ofNat_toNat]

theorem renderCode_of_numeral (hcode : code.toInt < 0 ∨ 256 ≤ code.toInt) :
    renderCode code = toString code.toInt := if_neg (by omega)

theorem renders_renderOutput (codes : List Int64) : Renders codes (renderOutput codes).toList := by
  induction codes with
  | nil => exact .nil
  | cons code codes ih =>
    rw [toList_renderOutput_cons]
    by_cases h : 0 ≤ code.toInt ∧ code.toInt < 256
    · obtain ⟨n, hn⟩ := Int.eq_ofNat_of_zero_le h.1
      have hlt : n < 256 := by omega
      have hvalid : n.isValidChar := .inl (by omega)
      have hchar : (Char.ofNat n).toNat = n := by
        rw [Char.ofNat, dif_pos hvalid]
        rfl
      have hcode : code.toInt = (Char.ofNat n).toNat := by rw [hchar, hn]
      rw [renderCode_of_character hcode (by omega), String.toList_singleton]
      exact .character hcode (by omega) ih
    · have hcode : code.toInt < 0 ∨ 256 ≤ code.toInt := by omega
      rw [renderCode_of_numeral hcode]
      exact .numeral hcode ih

theorem renders_iff : Renders codes text ↔ (renderOutput codes).toList = text := by
  constructor
  · intro h
    induction h with
    | nil => rfl
    | character hcode hc _ ih =>
      rw [toList_renderOutput_cons, renderCode_of_character hcode hc, ih, String.toList_singleton]
      rfl
    | numeral hcode _ ih => rw [toList_renderOutput_cons, renderCode_of_numeral hcode, ih]
  · rintro rfl
    exact renders_renderOutput codes

end TickMachine.DataPath
