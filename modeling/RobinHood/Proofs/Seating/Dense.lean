import RobinHood.Proofs.Seating.Insertion
import RobinHood.Proofs.Seating.Removal
import RobinHood.Proofs.Seating.Search

/-!
# Dense seatings are lists

In the dense layout the occupants form a list, one bucket after the other. A search goes through the list from the
front, a new element comes behind the others, and the last one takes the place of one that is removed. No hash is
looked at.
-/

namespace RobinHood

variable {α : Type}

/-- The list without the element at `i`, whose place the last one takes. -/
def swapRemove (l : List α) (i : Nat) : List α :=
  match l.getLast? with
  | some last => l.dropLast.set i last
  | none => []

theorem getElem?_swapRemove {l : List α} {i : Nat} (hi : i < l.length) (j : Nat) :
    (swapRemove l i)[j]? =
      if j < l.length - 1 then if j = i then l[l.length - 1]? else l[j]? else none := by
  have hlast : l.getLast? = some l[l.length - 1] := by
    rw [List.getLast?_eq_getElem?, List.getElem?_eq_getElem]
  rw [swapRemove, hlast, List.getElem?_set, List.length_dropLast, List.getElem?_dropLast]
  by_cases hij : i = j
  · subst hij
    rw [if_pos rfl, if_pos rfl, List.getElem?_eq_getElem]
  · rw [if_neg hij, if_neg (Ne.symm hij)]

theorem find?_range_any (l : List α) (isMatch : α → Bool) :
    ((List.range l.length).find? fun i => l[i]?.any isMatch) = l.findIdx? isMatch := by
  cases hfound : l.findIdx? isMatch with
  | some i =>
    obtain ⟨hi, hmatch, hfirst⟩ := List.findIdx?_eq_some_iff_getElem.mp hfound
    rw [List.find?_range_eq_some]
    refine ⟨by rwa [List.getElem?_eq_getElem hi], List.mem_range.mpr hi, fun j hj => ?_⟩
    rw [List.getElem?_eq_getElem (Nat.lt_trans hj hi), Option.any_some, Bool.not_eq_true']
    exact Bool.of_not_eq_true (hfirst j hj)
  | none =>
    rw [List.findIdx?_eq_none_iff] at hfound
    rw [List.find?_range_eq_none]
    intro i hi
    rw [List.getElem?_eq_getElem hi, Option.any_some, hfound _ (List.getElem_mem hi)]
    rfl

/-- Slots that hold the elements of a list from the front have that list as their elements. -/
theorem Slots.elements_eq_of_occupant {slots : Slots α} {l : List α} (h : ∀ i, slots.occupant i = l[i]?) :
    slots.elements = l := by
  have hle : l.length ≤ slots.size := by
    by_contra hlt
    have hlast := h slots.size
    rw [occupant_of_size_le (le_refl _), List.getElem?_eq_getElem (by omega)] at hlast
    cases hlast
  have hfront : (List.range l.length).map (fun i => l[i]?) = l.map some := by
    apply List.ext_getElem (by simp)
    intro i hi _
    simp only [List.length_map, List.length_range] at hi
    simp [List.getElem?_eq_getElem hi]
  have hback : ((List.range (slots.size - l.length)).map (l.length + ·)).filterMap (fun i => l[i]?) = [] := by
    rw [List.filterMap_eq_nil_iff]
    intro i hi
    obtain ⟨j, -, rfl⟩ := List.mem_map.mp hi
    exact List.getElem?_eq_none (Nat.le_add_right _ _)
  rw [elements_eq_filterMap, funext h, show slots.size = l.length + (slots.size - l.length) by omega, List.range_add,
    List.filterMap_append, hback, List.append_nil]
  have hid := congrArg (List.filterMap id) hfront
  rwa [List.filterMap_map, List.filterMap_map, Function.id_comp, Function.id_comp, List.filterMap_some] at hid

namespace Seating

variable {s : Seating α} {hashOf : α → UInt64} {x : α} {b : Nat}

theorem InStep.occupant_of_dense (h : s.InStep) (hdense : s.table.isDense = true) (i : Nat) :
    s.slots.occupant i = s.slots.elements[i]? := by
  have hseated : ∀ i : Fin s.table.count, (s.slots.occupant i).isSome = true := fun i =>
    Option.isSome_iff_ne_none.mpr ((h.lt_count_iff (layout_of_isDense hdense)).mp i.isLt)
  have hlisted : ∀ i, s.slots.occupant i = (List.ofFn fun i => (s.slots.occupant i).get (hseated i))[i]? := by
    intro i
    rw [List.getElem?_ofFn]
    split
    · next hi => exact (Option.some_get (hseated ⟨i, hi⟩)).symm
    · next hi => exact not_not.mp fun hsome => hi ((h.lt_count_iff (layout_of_isDense hdense)).mpr hsome)
  rw [Slots.elements_eq_of_occupant hlisted]
  exact hlisted i

theorem InStep.isOccupied_of_dense (h : s.InStep) (hdense : s.table.isDense = true) (i : Nat) :
    s.table.isOccupied i = decide (i < s.slots.elements.length) := by
  rw [Table.isOccupied, layout_of_isDense hdense, h.count]

/-- A search finds the first match. -/
theorem InStep.find_of_dense (h : s.InStep) (hdense : s.table.isDense = true) (hash : UInt64) (isMatch : α → Bool) :
    s.find hash isMatch = .ok ⟨s.slots.elements.findIdx? isMatch, 0⟩ := by
  have hread : ∀ i ∈ List.range s.table.count, isMatch <$> s.slots.get i = .ok (s.slots.elements[i]?.any isMatch) := by
    intro i hi
    rw [List.mem_range, h.count] at hi
    have hx := h.occupant_of_dense hdense i
    rw [List.getElem?_eq_getElem hi] at hx ⊢
    rw [Slots.get_of_occupant hx]
    rfl
  have hscan := findM?_of_ok hread
  rw [h.count, find?_range_any] at hscan
  rw [Seating.find, Table.find, layout_of_isDense hdense, h.count]
  simp only [hscan]
  rfl

/-- A new element comes behind the others. -/
theorem InStep.elements_seat (h : s.InStep) (hdense : s.table.isDense = true) {hash : UInt64} {seated : Seated α}
    (hok : s.seat hashOf x hash = .ok seated) (hseats : Seats s x seated) :
    seated.seating.slots.elements = s.slots.elements ++ [x] := by
  have hmore := hseats.elements.length_eq
  rw [List.length_cons, ← hseats.inStep.count, ← h.count] at hmore
  have hroom := hseats.inStep.count_le
  rw [hmore, hseats.like.capacity] at hroom
  have hb : s.table.count < s.slots.size := by
    rwa [h.size_slots, Table.bucketCount, layout_of_isDense hdense]
  have hslots : seated.seating.slots = s.slots.assign s.table.count (some x) := by
    rw [Seating.seat, Table.place] at hok
    simp only [layout_of_isDense hdense, bind, Except.bind, pure, Except.pure, Slots.perform_settle hb,
      Slots.perform_nil] at hok
    rw [← Except.ok.inj hok]
  apply Slots.elements_eq_of_occupant
  intro i
  rw [hslots, Slots.occupant_assign hb, h.count, Function.update_apply, h.occupant_of_dense hdense]
  by_cases hi : i = s.slots.elements.length
  · rw [if_pos hi, hi, List.getElem?_concat_length]
  · rw [if_neg hi]
    by_cases hlt : i < s.slots.elements.length
    · rw [List.getElem?_append_left hlt]
    · have hlength : (s.slots.elements ++ [x]).length ≤ i := by
        rw [List.length_append, List.length_singleton]
        omega
      rw [List.getElem?_eq_none (by omega), List.getElem?_eq_none hlength]

/-- The last element takes the place of one that is taken out. -/
private theorem InStep.elements_fillFromEnd {slots : Slots α} (h : s.InStep) (hdense : s.table.isDense = true)
    (hx : s.slots.occupant b = some x)
    (hperformed : (s.slots.assign b none).perform none
      (Table.fillFromEnd { s.table with count := s.table.count - 1 } b) = .ok slots) :
    slots.elements = swapRemove s.slots.elements b := by
  have hb := Slots.lt_size_of_occupant hx
  have hoccupant := h.occupant_of_dense hdense
  have hlt : b < s.slots.elements.length := by
    by_contra hge
    rw [hoccupant, List.getElem?_eq_none (Nat.le_of_not_lt hge)] at hx
    cases hx
  rw [Table.fillFromEnd, h.count] at hperformed
  apply Slots.elements_eq_of_occupant
  intro i
  rw [getElem?_swapRemove hlt]
  -- Where the last element itself was taken out, the hole is behind the others, and nothing moves.
  by_cases hlast : b = s.slots.elements.length - 1
  · rw [if_pos hlast, Slots.perform_nil] at hperformed
    rw [← Except.ok.inj hperformed, Slots.occupant_assign hb, Function.update_apply, hoccupant]
    by_cases hi : i = b
    · rw [if_pos hi, if_neg (by omega)]
    · rw [if_neg hi, if_neg hi]
      split
      · rfl
      · exact List.getElem?_eq_none (by omega)
  · have hend : s.slots.elements.length - 1 < s.slots.size := by
      have hsome := hoccupant (s.slots.elements.length - 1)
      rw [List.getElem?_eq_getElem (by omega)] at hsome
      exact Slots.lt_size_of_occupant hsome
    rw [if_neg hlast, Slots.perform_shift (by rwa [Slots.size_assign]) (by rwa [Slots.size_assign]),
      Slots.perform_nil] at hperformed
    rw [← Except.ok.inj hperformed, Slots.occupant_moved (by rwa [Slots.size_assign]) (by rwa [Slots.size_assign]),
      Slots.occupant_assign hb, Function.update_of_ne (Ne.symm hlast), Function.update_apply, hoccupant, hoccupant]
    by_cases hi : i = b
    · rw [if_pos hi, if_pos (by omega), if_pos hi]
    · rw [if_neg hi, if_neg hi, if_neg hi]
      by_cases hend : i = s.slots.elements.length - 1
      · rw [if_pos hend, if_neg (by omega)]
      · rw [if_neg hend]
        split
        · rfl
        · exact List.getElem?_eq_none (by omega)

theorem InStep.elements_unseat (h : s.InStep) (hdense : s.table.isDense = true) {unseated : Unseated α}
    (hok : s.unseat hashOf b = .ok unseated) (hunseats : Unseats s b unseated) :
    unseated.seating.slots.elements = swapRemove s.slots.elements b := by
  obtain ⟨expected, hunseat, -, -, -, hmoves⟩ := h.unseat_dense hashOf (layout_of_isDense hdense) hunseats.element
  obtain rfl := Except.ok.inj (hok.symm.trans hunseat)
  exact h.elements_fillFromEnd hdense hunseats.element (hmoves ▸ hunseats.performed)

theorem InStep.elements_abandon (h : s.InStep) (hdense : s.table.isDense = true) {unseated : Unseated α}
    (hok : s.abandon b = .ok unseated) (hunseats : Unseats s b unseated) :
    unseated.seating.slots.elements = swapRemove s.slots.elements b := by
  obtain ⟨expected, -, habandon, -, -, hmoves⟩ :=
    h.unseat_dense (fun _ => 0) (layout_of_isDense hdense) hunseats.element
  obtain rfl := Except.ok.inj (hok.symm.trans habandon)
  exact h.elements_fillFromEnd hdense hunseats.element (hmoves ▸ hunseats.performed)

theorem InStep.elements_replace (h : s.InStep) (hdense : s.table.isDense = true) (hx : s.slots.occupant b = some x)
    (y : α) : (s.slots.assign b (some y)).elements = s.slots.elements.set b y := by
  have hb := Slots.lt_size_of_occupant hx
  rw [h.occupant_of_dense hdense, List.getElem?_eq_some_iff] at hx
  obtain ⟨hlt, -⟩ := hx
  apply Slots.elements_eq_of_occupant
  intro i
  rw [Slots.occupant_assign hb, Function.update_apply, h.occupant_of_dense hdense, List.getElem?_set]
  by_cases hi : b = i
  · rw [if_pos hi.symm, if_pos hi, if_pos hlt]
  · rw [if_neg (Ne.symm hi), if_neg hi]

end Seating

end RobinHood
