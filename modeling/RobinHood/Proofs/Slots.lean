import Mathlib.Logic.Function.Basic
import RobinHood.Slots
import RobinHood.Table.Move

/-!
# What slots hold

Slots are read through their occupants, a function of the bucket, and through their elements, the list
of the occupants in bucket order. Each operation is one equation for the first and one permutation for
the second; a vacant slot or a bucket past the end is where an operation has no equation.
-/

namespace RobinHood.Slots

variable {α : Type} {slots : Slots α} {b i : Nat} {x y : α} {c : Option α}

/-- What the slot of a bucket holds, if there is such a slot and it holds something. -/
def occupant (slots : Slots α) (i : Nat) : Option α :=
  slots.cells[i]?.join

def elements (slots : Slots α) : List α :=
  slots.cells.toList.filterMap id

theorem occupant_of_size_le (hi : slots.size ≤ i) : slots.occupant i = none := by
  rw [occupant, Array.getElem?_eq_none hi]
  rfl

theorem lt_size_of_occupant (hx : slots.occupant i = some x) : i < slots.size := by
  by_cases hi : i < slots.size
  · exact hi
  · rw [occupant_of_size_le (Nat.le_of_not_lt hi)] at hx
    cases hx

theorem cell_of_lt (hi : i < slots.size) : slots.cell i = .ok (slots.occupant i) := by
  have hget : slots.cells[i]? = some slots.cells[i] := Array.getElem?_eq_getElem hi
  rw [cell, occupant, hget]
  rfl

theorem get_of_occupant (hx : slots.occupant i = some x) : slots.get i = .ok x := by
  rw [get, cell_of_lt (lt_size_of_occupant hx), hx]
  rfl

theorem get_congr {t : Slots α} (hsize : t.size = slots.size) (h : t.occupant i = slots.occupant i) :
    t.get i = slots.get i := by
  by_cases hi : i < slots.size
  · rw [get, get, cell_of_lt hi, cell_of_lt (hsize ▸ hi), h]
  · have hend : slots.cells[i]? = none := Array.getElem?_eq_none (Nat.le_of_not_lt hi)
    have hend' : t.cells[i]? = none := Array.getElem?_eq_none (Nat.le_of_not_lt fun hi' => hi (hsize ▸ hi'))
    rw [get, get, cell, cell, hend, hend', hsize]

/-! ### Operations -/

@[simp] theorem size_assign (slots : Slots α) (b : Nat) (c : Option α) : (slots.assign b c).size = slots.size :=
  Array.size_setIfInBounds

theorem occupant_assign (hb : b < slots.size) (c : Option α) :
    (slots.assign b c).occupant = Function.update slots.occupant b c := by
  funext i
  rw [occupant, assign, Array.getElem?_setIfInBounds]
  by_cases hbi : b = i
  · subst hbi
    have hb' : b < slots.cells.size := hb
    rw [if_pos rfl, if_pos hb', Function.update_self]
    rfl
  · rw [if_neg hbi, Function.update_of_ne (Ne.symm hbi)]
    rfl

theorem isSome_assign (hb : b < slots.size) (c : Option α) (i : Nat) :
    ((slots.assign b c).occupant i).isSome = if i = b then c.isSome else (slots.occupant i).isSome := by
  rw [occupant_assign hb, Function.update_apply]
  split <;> rfl

theorem occupant_moved {source target : Nat} (hs : source < slots.size) (ht : target < slots.size)
    (c : Option α) (i : Nat) : ((slots.assign source none).assign target c).occupant i =
      if i = target then c else if i = source then none else slots.occupant i := by
  rw [occupant_assign (by rwa [size_assign]), occupant_assign hs, Function.update_apply, Function.update_apply]

theorem put_of_lt (hb : b < slots.size) (x : α) : slots.put b x = .ok (slots.assign b (some x)) := by
  rw [put, cell_of_lt hb]
  rfl

theorem takeCell_of_lt (hb : b < slots.size) :
    slots.takeCell b = .ok (slots.occupant b, slots.assign b none) := by
  rw [takeCell, cell_of_lt hb]
  rfl

theorem take_of_occupant (hx : slots.occupant b = some x) : slots.take b = .ok (x, slots.assign b none) := by
  rw [take, get_of_occupant hx]
  rfl

theorem exchange_of_occupant (hx : slots.occupant b = some x) (y : α) :
    slots.exchange b y = .ok (x, slots.assign b (some y)) := by
  rw [exchange, get_of_occupant hx]
  rfl

theorem runOn_relocate {source target : Nat} (hs : source < slots.size) (ht : target < slots.size) :
    (relocate source target).runOn slots =
      (.ok (), (slots.assign source none).assign target (slots.occupant source)) := by
  have ht' : target < (slots.assign source none).size := by rwa [size_assign]
  rw [relocate, ActionT.runOn_ofStep, takeCell_of_lt hs]
  simp only [cell_of_lt ht']

@[simp] theorem size_vacant (n : Nat) : (vacant n : Slots α).size = n :=
  Array.size_replicate

@[simp] theorem occupant_vacant (n i : Nat) : (vacant n : Slots α).occupant i = none := by
  rw [occupant, vacant, Array.getElem?_replicate]
  split <;> rfl

@[simp] theorem size_clear (slots : Slots α) : slots.clear.size = slots.size :=
  Array.size_map

@[simp] theorem occupant_clear (slots : Slots α) (i : Nat) : slots.clear.occupant i = none := by
  rw [occupant, clear, Array.getElem?_map]
  cases slots.cells[i]? <;> rfl

/-! ### Elements -/

theorem toList_cells (slots : Slots α) : slots.cells.toList = (List.range slots.size).map slots.occupant := by
  apply List.ext_getElem (by simp [size])
  intro i hi _
  rw [Array.length_toList] at hi
  rw [List.getElem_map, List.getElem_range, Array.getElem_toList, occupant, Array.getElem?_eq_getElem hi]
  rfl

theorem elements_eq_filterMap (slots : Slots α) :
    slots.elements = (List.range slots.size).filterMap slots.occupant := by
  rw [elements, toList_cells, List.filterMap_map]
  rfl

theorem mem_elements : x ∈ slots.elements ↔ ∃ i, slots.occupant i = some x := by
  rw [elements_eq_filterMap, List.mem_filterMap]
  constructor
  · rintro ⟨i, _, hx⟩
    exact ⟨i, hx⟩
  · rintro ⟨i, hx⟩
    exact ⟨i, List.mem_range.mpr (lt_size_of_occupant hx), hx⟩

theorem elements_eq_nil (h : ∀ i, slots.occupant i = none) : slots.elements = [] := by
  rw [List.eq_nil_iff_forall_not_mem]
  intro x hx
  obtain ⟨i, hi⟩ := mem_elements.mp hx
  rw [h] at hi
  cases hi

private theorem elements_assign (hb : b < slots.size) (c : Option α) :
    (slots.assign b c).elements =
      (slots.cells.toList.take b).filterMap id ++ (c.toList ++ (slots.cells.toList.drop (b + 1)).filterMap id) := by
  have hlen : b < slots.cells.toList.length := hb
  rw [elements, assign, Array.toList_setIfInBounds, List.set_eq_take_append_cons_drop, if_pos hlen,
    List.filterMap_append, List.filterMap_cons]
  cases c <;> rfl

@[simp] theorem assign_assign (slots : Slots α) (b : Nat) (c c' : Option α) :
    (slots.assign b c).assign b c' = slots.assign b c' := by
  rw [assign, assign, Array.setIfInBounds_setIfInBounds]
  rfl

theorem ext_occupant {other : Slots α} (hsize : slots.size = other.size)
    (h : ∀ i, slots.occupant i = other.occupant i) : slots = other := by
  have hcells : slots.cells.toList = other.cells.toList := by
    rw [toList_cells, toList_cells, hsize]
    exact List.map_congr_left fun i _ => h i
  obtain ⟨cells⟩ := slots
  obtain ⟨cells'⟩ := other
  exact congrArg Slots.mk (Array.toList_inj.mp hcells)

/-- Slots of which none holds anything are as new. -/
theorem eq_vacant (h : ∀ i, slots.occupant i = none) : slots = vacant slots.size := by
  refine ext_occupant (size_vacant _).symm fun i => ?_
  rw [h, occupant_vacant]

theorem assign_self (hc : slots.occupant b = c) : slots.assign b c = slots := by
  apply ext_occupant (size_assign ..)
  intro i
  by_cases hb : b < slots.size
  · rw [occupant_assign hb, ← hc, Function.update_eq_self]
  · rw [assign, Array.setIfInBounds_eq_of_size_le (Nat.le_of_not_lt hb)]

theorem elements_perm_cons (hx : slots.occupant b = some x) :
    slots.elements.Perm (x :: (slots.assign b none).elements) := by
  have hb := lt_size_of_occupant hx
  have hself := elements_assign hb (some x)
  rw [assign_self hx] at hself
  rw [hself, elements_assign hb]
  exact List.perm_middle

theorem elements_assign_some (hb : b < slots.size) (hnone : slots.occupant b = none) (x : α) :
    (slots.assign b (some x)).elements.Perm (x :: slots.elements) := by
  have hx : (slots.assign b (some x)).occupant b = some x := by
    rw [occupant_assign hb, Function.update_self]
  have hperm := elements_perm_cons hx
  rwa [assign_assign, assign_self hnone] at hperm

theorem elements_replace (hx : slots.occupant b = some x) (y : α) :
    (x :: (slots.assign b (some y)).elements).Perm (y :: slots.elements) := by
  have hb := lt_size_of_occupant hx
  have hy : (slots.assign b (some y)).occupant b = some y := by
    rw [occupant_assign hb, Function.update_self]
  have hperm := elements_perm_cons hy
  rw [assign_assign] at hperm
  have hswap := List.Perm.swap y x (slots.assign b none).elements
  exact (hperm.cons x).trans (hswap.trans ((elements_perm_cons hx).symm.cons y))

theorem elements_move {source target : Nat} (hx : slots.occupant source = some x)
    (ht : target < slots.size) (hnone : slots.occupant target = none) :
    ((slots.assign source none).assign target (some x)).elements.Perm slots.elements := by
  have hs := lt_size_of_occupant hx
  have ht' : target < (slots.assign source none).size := by rwa [size_assign]
  have hvacant : (slots.assign source none).occupant target = none := by
    rw [occupant_assign hs]
    by_cases hst : target = source
    · rw [hst, Function.update_self]
    · rw [Function.update_of_ne hst, hnone]
  exact (elements_assign_some ht' hvacant x).trans (elements_perm_cons hx).symm

theorem length_elements_eq_countP (slots : Slots α) :
    slots.elements.length = (List.range slots.size).countP fun i => (slots.occupant i).isSome := by
  rw [elements_eq_filterMap, List.length_filterMap_eq_countP]

theorem exists_vacant (h : slots.elements.length < slots.size) :
    ∃ i < slots.size, slots.occupant i = none := by
  by_contra hall
  have hsome : ∀ i ∈ List.range slots.size, (slots.occupant i).isSome := by
    intro i hi
    rw [Option.isSome_iff_ne_none]
    exact fun hnone => hall ⟨i, List.mem_range.mp hi, hnone⟩
  rw [length_elements_eq_countP, List.countP_eq_length.mpr hsome, List.length_range] at h
  exact Nat.lt_irrefl _ h

/-! ### Performing moves -/

@[simp] theorem perform_nil (slots : Slots α) (hand : Option α) : slots.perform hand [] = .ok slots := by
  cases hand <;> rfl

theorem perform_swap {moves : List Move} (hy : slots.occupant b = some y) (x : α) :
    slots.perform (some x) (.swap b :: moves) = (slots.assign b (some x)).perform (some y) moves := by
  rw [perform, exchange_of_occupant hy]
  rfl

theorem perform_settle {moves : List Move} (hb : b < slots.size) (x : α) :
    slots.perform (some x) (.settle b :: moves) = (slots.assign b (some x)).perform none moves := by
  rw [perform, put_of_lt hb]
  rfl

theorem perform_shift {moves : List Move} {source target : Nat} (hs : source < slots.size)
    (ht : target < slots.size) (hand : Option α) :
    slots.perform hand (.shift source target :: moves) =
      ((slots.assign source none).assign target (slots.occupant source)).perform hand moves := by
  rw [perform, runOn_relocate hs ht]

end RobinHood.Slots
