import Mathlib.Data.List.Intervals
import Mathlib.Data.List.Nodup
import Mathlib.Data.Option.Basic
import TickMachine.Debugger.Basic

/-! The rows of a debugger's listing. They are those of a window of addresses around the current
one, as far as the program reaches, so that a row is told by its address and the current instruction
has one row whenever there is room for any. -/

namespace TickMachine.Debugger

variable {d : Debugger} {row : ListingRow} {rows : List ListingRow} {k lines : Nat}

def firstListed (d : Debugger) (lines : Nat) : Nat := d.counter.toNat - lines / 2

def endListed (d : Debugger) (lines : Nat) : Nat :=
  min (d.firstListed lines + lines) d.machine.program.size

def listingRow (d : Debugger) (address : Nat) (w : Word) : ListingRow :=
  ⟨address, w.assembly, decide (address = d.counter.toNat)⟩

theorem firstListed_add (d : Debugger) (lines : Nat) :
    d.firstListed lines + min d.counter.toNat (lines / 2) = d.counter.toNat := by
  rw [firstListed]
  omega

theorem counter_mem_window (hcounter : d.counter.toNat < d.machine.program.size)
    (hlines : 0 < lines) :
    d.counter.toNat ∈ List.Ico (d.firstListed lines) (d.endListed lines) := by
  have hadd := d.firstListed_add lines
  rw [List.Ico.mem, endListed]
  omega

theorem getElem?_listing (h : k < lines) : (d.listing lines)[k]? =
    d.machine.program[d.firstListed lines + k]?.map (d.listingRow (d.firstListed lines + k)) := by
  rw [listing, List.getElem?_mapIdx, List.getElem?_take_of_lt h, List.getElem?_drop,
    Array.getElem?_toList]
  rfl

theorem length_listing (d : Debugger) (lines : Nat) :
    (d.listing lines).length = d.endListed lines - d.firstListed lines := by
  rw [listing, List.length_mapIdx, List.length_take, List.length_drop, Array.length_toList,
    endListed, firstListed]
  omega

theorem exists_listed (h : k < (d.listing lines).length) :
    ∃ w, d.machine.program[d.firstListed lines + k]? = some w ∧
      (d.listing lines)[k] = d.listingRow (d.firstListed lines + k) w := by
  have hk : k < lines := by
    rw [length_listing, endListed] at h
    omega
  have hrow := getElem?_listing (d := d) hk
  rw [List.getElem?_eq_getElem h] at hrow
  obtain ⟨w, hw, heq⟩ := Option.map_eq_some_iff.1 hrow.symm
  exact ⟨w, hw, heq.symm⟩

theorem map_address_listing (d : Debugger) (lines : Nat) :
    (d.listing lines).map ListingRow.address =
      List.Ico (d.firstListed lines) (d.endListed lines) := by
  refine List.ext_getElem (by rw [List.length_map, length_listing, List.Ico.length]) ?_
  intro k hk _
  rw [List.length_map] at hk
  obtain ⟨w, -, hrow⟩ := exists_listed hk
  simp [hrow, listingRow, List.Ico]

theorem eq_listingRow_of_mem (h : row ∈ d.listing lines) :
    ∃ w, d.machine.program[row.address]? = some w ∧ row = d.listingRow row.address w := by
  obtain ⟨k, hk, rfl⟩ := List.mem_iff_getElem.1 h
  obtain ⟨w, hw, hrow⟩ := exists_listed hk
  rw [hrow]
  exact ⟨w, hw, rfl⟩

theorem map_address_isCurrent (d : Debugger) (lines : Nat) :
    ((d.listing lines).filter ListingRow.isCurrent).map ListingRow.address =
      (List.Ico (d.firstListed lines) (d.endListed lines)).filter (· = d.counter.toNat) := by
  rw [← map_address_listing, List.filter_map]
  refine congrArg _ (List.filter_congr fun row hrow => ?_)
  obtain ⟨w, -, heq⟩ := eq_listingRow_of_mem hrow
  exact congrArg ListingRow.isCurrent heq

/-! ### The window -/

/-- The rows of the addresses from `firstListed` to `endListed`, each with its instruction, and one
of them marked as the current one if the counter is inside the program. -/
structure IsWindow (d : Debugger) (lines : Nat) (rows : List ListingRow) : Prop where
  first : (d.firstListed lines : Int) = max 0 ((d.counter.toNat : Int) - (lines / 2 : Nat))
  addresses : rows.map ListingRow.address = List.Ico (d.firstListed lines) (d.endListed lines)
  beyond : d.machine.program.size ≤ d.firstListed lines → rows = []
  instruction : ∀ row ∈ rows,
    d.machine.program[row.address]?.map Word.assembly = some row.instruction
  current : d.counter.toNat < d.machine.program.size → 0 < lines →
    (rows.filter ListingRow.isCurrent).map ListingRow.address = [d.counter.toNat]
  outside : d.machine.program.size ≤ d.counter.toNat → ∀ row ∈ rows, row.isCurrent = false

theorem isWindow_listing (d : Debugger) (lines : Nat) : d.IsWindow lines (d.listing lines) where
  first := by
    rw [firstListed]
    omega
  addresses := d.map_address_listing lines
  beyond := by
    intro h
    rw [← List.length_eq_zero_iff, length_listing, endListed]
    omega
  instruction := by
    intro row hrow
    obtain ⟨w, hw, heq⟩ := eq_listingRow_of_mem hrow
    rw [hw, heq]
    rfl
  current := by
    intro hcounter hlines
    have hcount := List.count_eq_one_of_mem (List.Ico.nodup ..) (counter_mem_window hcounter hlines)
    rw [map_address_isCurrent, List.filter_eq, hcount]
    rfl
  outside := by
    intro hcounter row hrow
    obtain ⟨w, hw, heq⟩ := eq_listingRow_of_mem hrow
    have hlt := (Array.getElem?_eq_some_iff.1 hw).1
    rw [heq]
    exact decide_eq_false (by omega)

theorem IsWindow.isCurrent_eq (h : d.IsWindow lines rows) (hrow : row ∈ rows) :
    row.isCurrent = decide (row.address = d.counter.toNat) := by
  have hmem : row.address ∈ List.Ico (d.firstListed lines) (d.endListed lines) :=
    h.addresses ▸ List.mem_map_of_mem hrow
  rw [List.Ico.mem, endListed] at hmem
  by_cases hcounter : d.counter.toNat < d.machine.program.size
  · have hmarked := h.current hcounter (by omega)
    rw [Bool.eq_iff_iff, decide_eq_true_eq]
    constructor
    · intro hcurrent
      have haddress := List.mem_map_of_mem (f := ListingRow.address)
        (List.mem_filter.2 ⟨hrow, hcurrent⟩)
      rw [hmarked] at haddress
      exact List.mem_singleton.1 haddress
    · intro haddress
      obtain ⟨other, hother, heq⟩ := List.mem_map.1 (hmarked ▸ List.mem_singleton_self _)
      obtain ⟨hother, hcurrent⟩ := List.mem_filter.1 hother
      have hnodup : (rows.map ListingRow.address).Nodup := h.addresses ▸ List.Ico.nodup ..
      rwa [List.inj_on_of_nodup_map hnodup hrow hother (haddress.trans heq.symm)]
  · rw [h.outside (by omega) row hrow, eq_comm]
    exact decide_eq_false (by omega)

theorem IsWindow.map_some_eq (h : d.IsWindow lines rows) : rows.map some =
    (List.Ico (d.firstListed lines) (d.endListed lines)).map fun address =>
      d.machine.program[address]?.map (d.listingRow address) := by
  rw [← h.addresses, List.map_map]
  refine List.map_congr_left fun row hrow => ?_
  obtain ⟨w, hw, htext⟩ := Option.map_eq_some_iff.1 (h.instruction row hrow)
  simp [hw, listingRow, htext, ← h.isCurrent_eq hrow]

/-- The listing is the window around the current instruction, and nothing else is. -/
theorem listing_window (d : Debugger) (lines : Nat) (rows : List ListingRow) :
    d.IsWindow lines rows ↔ rows = d.listing lines := by
  constructor
  · intro h
    have hsome := h.map_some_eq.trans (d.isWindow_listing lines).map_some_eq.symm
    exact List.map_injective_iff.2 (Option.some_injective _) hsome
  · rintro rfl
    exact d.isWindow_listing lines

theorem listing_window_end :
    let jumped (target : Int64) :=
      (ofImage ⟨[], [⟨0, .jmp, [target]⟩, ⟨1, .hlt, []⟩, ⟨2, .hlt, []⟩]⟩ []).step
    (((jumped 2).listing 3).map ListingRow.address = [1, 2] ∧
      (((jumped 2).listing 3).filter ListingRow.isCurrent).map ListingRow.address = [2]) ∧
    (((jumped 4).listing 4).map ListingRow.address = [2] ∧
      ∀ row ∈ (jumped 4).listing 4, row.isCurrent = false) ∧
    (jumped 4).listing 2 = [] := by
  intro jumped
  have hlast := ((jumped 2).listing_window 3 _).2 rfl
  have hbehind := ((jumped 4).listing_window 4 _).2 rfl
  have hfar := ((jumped 4).listing_window 2 _).2 rfl
  exact ⟨⟨hlast.addresses.trans (by decide), hlast.current (by decide) (by decide)⟩,
    ⟨hbehind.addresses.trans (by decide), hbehind.outside (by decide)⟩, hfar.beyond (by decide)⟩

end TickMachine.Debugger
