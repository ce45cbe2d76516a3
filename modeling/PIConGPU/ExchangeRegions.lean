import PIConGPU.RegisteredTags

/-!
# The cells of an exchange

An exchange in the memory of a buffer is a box of cells at one side, edge or corner. Its cells are copied
in the order of their addresses, with x running fastest.
-/
namespace PIConGPU

open RowMajor

variable {D : ℕ}

def boxCells (size : DataSpace D) : List (DataSpace D) :=
  (List.range (∏ j : Fin D, (size j.rev).toNat)).map fun k d =>
    (rowMajorCoords (fun j => (size j.rev).toNat) k d.rev : ℤ)

theorem mem_boxCells {size c : DataSpace D} : c ∈ boxCells size ↔ ∀ d, 0 ≤ c d ∧ c d < size d := by
  simp only [boxCells, List.mem_map, List.mem_range]
  constructor
  · rintro ⟨k, hk, rfl⟩ d
    have := rowMajorCoords_lt (fun j => (size j.rev).toNat) k hk d.rev
    simp only [Fin.rev_rev] at this
    dsimp only
    omega
  · intro h
    have hlt : ∀ j : Fin D, (c j.rev).toNat < (size j.rev).toNat := fun j => by
      have := h j.rev
      omega
    refine ⟨rowMajor (fun j => (size j.rev).toNat) fun j => (c j.rev).toNat, rowMajor_lt _ _ hlt, ?_⟩
    rw [rowMajorCoords_rowMajor _ _ hlt]
    funext d
    simp [Int.toNat_of_nonneg (h d).1]

theorem nodup_boxCells (size : DataSpace D) : (boxCells size).Nodup := by
  refine (List.nodup_map_iff_inj_on List.nodup_range).mpr fun k hk l hl h => ?_
  have hcoords : rowMajorCoords (fun j => (size j.rev).toNat) k = rowMajorCoords (fun j => (size j.rev).toNat) l := by
    funext d
    have hd := congrFun h d.rev
    simpa using hd
  rw [← rowMajor_rowMajorCoords (fun j => (size j.rev).toNat) k (List.mem_range.mp hk), hcoords,
    rowMajor_rowMajorCoords (fun j => (size j.rev).toNat) l (List.mem_range.mp hl)]

namespace ExchangeIntern

def cells (e : ExchangeIntern D) : List (DataSpace D) := (boxCells e.size).map (e.offset.getD 0 + ·)

theorem mem_cells {e : ExchangeIntern D} {c : DataSpace D} :
    c ∈ e.cells ↔ ∀ d, e.offset.getD 0 d ≤ c d ∧ c d < e.offset.getD 0 d + e.size d := by
  simp only [cells, List.mem_map, mem_boxCells]
  constructor
  · rintro ⟨x, hx, rfl⟩ d
    have := hx d
    rw [Pi.add_apply]
    omega
  · intro h
    refine ⟨c - e.offset.getD 0, fun d => ?_, add_sub_cancel _ _⟩
    have := h d
    rw [Pi.sub_apply]
    omega

theorem nodup_cells (e : ExchangeIntern D) : e.cells.Nodup :=
  (nodup_boxCells e.size).map (add_right_injective _)

theorem length_cells {e e' : ExchangeIntern D} (h : e.size = e'.size) : e.cells.length = e'.cells.length := by
  simp [cells, h]

theorem cells_getElem {e e' : ExchangeIntern D} (h : e.size = e'.size) {k : ℕ} {c c' : DataSpace D}
    (hc : e.cells[k]? = some c) (hc' : e'.cells[k]? = some c') :
    c' = c - e.offset.getD 0 + e'.offset.getD 0 := by
  simp only [cells, List.getElem?_map, Option.map_eq_some_iff, h] at hc hc'
  obtain ⟨x, hx, rfl⟩ := hc
  obtain ⟨y, hy, rfl⟩ := hc'
  rw [hx, Option.some_inj] at hy
  rw [← hy]
  funext d
  simp only [Pi.add_apply, Pi.sub_apply]
  ring

section Directions

variable {ex : ℕ} (h1 : 1 ≤ ex) (h27 : ex < 27) (hD : D ≤ 3)

include h1 h27 hD

theorem contains_axisTypes (d : Fin D) :
    ((Mask.ofExchange ex).containsExchangeType (axisTypes d).1 = true ↔ getRelativeDirections D ex d = 1) ∧
      ((Mask.ofExchange ex).containsExchangeType (axisTypes d).2 = true ↔ getRelativeDirections D ex d = -1) := by
  have hlt : ex / 3^d.val % 3 < 3 := Nat.mod_lt _ (by norm_num)
  have hdigit : (ex / 3^d.val % 3 = 1 ↔ getRelativeDirections D ex d = 1) ∧
      (ex / 3^d.val % 3 = 2 ↔ getRelativeDirections D ex d = -1) := by
    simp only [getRelativeDirections, digitOffset]
    generalize ex / 3^d.val % 3 = digit at hlt
    interval_cases digit <;> decide
  rw [← hdigit.1, ← hdigit.2]
  obtain ⟨d, hd⟩ := d
  have hd3 : d < 3 := by omega
  interval_cases d
  · simp [axisTypes, Mask.contains_right h1 h27, Mask.contains_left h1 h27]
  · simp [axisTypes, Mask.contains_bottom h1 h27, Mask.contains_top h1 h27]
  · simp [axisTypes, Mask.contains_back h1 h27, Mask.contains_front h1 h27]

theorem exchangeTypeToDim_eq_one (d : Fin D) :
    exchangeTypeToDim D ex d = 1 ↔ getRelativeDirections D ex d ≠ 0 := by
  obtain ⟨hup, hdown⟩ := contains_axisTypes h1 h27 hD d
  simp only [exchangeTypeToDim, hup, hdown]
  rcases getRelativeDirections_cases D ex d with h | h | h <;> simp [h]

theorem exchangeTypeToOffset_eq (memoryLayout : GridLayout D) (guardingCells : DataSpace D) (area : AreaType)
    (d : Fin D) :
    exchangeTypeToOffset ex memoryLayout guardingCells area d =
      if getRelativeDirections D ex d = 1 then
        memoryLayout.guard d + memoryLayout.dataSpace d - (if area = .GUARD then 0 else guardingCells d)
      else memoryLayout.guard d -
        (if area = .GUARD ∧ getRelativeDirections D ex d = -1 then guardingCells d else 0) := by
  obtain ⟨hup, hdown⟩ := contains_axisTypes h1 h27 hD d
  simp only [exchangeTypeToOffset, hup, hdown, GridLayout.getDataSpace, Pi.add_apply]
  split_ifs <;> ring

end Directions

end ExchangeIntern

end PIConGPU
