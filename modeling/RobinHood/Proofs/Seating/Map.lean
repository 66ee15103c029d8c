import RobinHood.Proofs.Seating.Basic

/-!
# Elements seen through a function

Nothing that a table asks of its slots looks at an element, save through its hash or a match. So slots of
images go through the same moves as the slots of the elements themselves, and a dictionary, which keeps
keys and values apart, is read as two images of one seating of entries.
-/

namespace RobinHood

variable {α β : Type} {f : α → β}

namespace Slots

variable {slots : Slots α} {b : Nat}

def map (f : α → β) (slots : Slots α) : Slots β where
  cells := slots.cells.map (Option.map f)

@[simp] theorem size_map (f : α → β) (slots : Slots α) : (slots.map f).size = slots.size :=
  Array.size_map

@[simp] theorem occupant_map (f : α → β) (slots : Slots α) (i : Nat) :
    (slots.map f).occupant i = (slots.occupant i).map f := by
  rw [occupant, map, Array.getElem?_map, occupant]
  cases slots.cells[i]? <;> rfl

theorem elements_map (f : α → β) (slots : Slots α) : (slots.map f).elements = slots.elements.map f := by
  rw [elements, elements, map, Array.toList_map, List.filterMap_map, List.map_filterMap]
  rfl

@[simp] theorem map_vacant (f : α → β) (n : Nat) : (vacant n).map f = vacant n := by
  apply ext_occupant
  · rw [size_map, size_vacant, size_vacant]
  · intro i
    rw [occupant_map, occupant_vacant, occupant_vacant, Option.map_none]

@[simp] theorem clear_map (f : α → β) (slots : Slots α) : (slots.map f).clear = slots.clear.map f := by
  apply ext_occupant
  · rw [size_clear, size_map, size_map, size_clear]
  · intro i
    rw [occupant_clear, occupant_map, occupant_clear, Option.map_none]

theorem assign_map (f : α → β) (slots : Slots α) (b : Nat) (c : Option α) :
    (slots.map f).assign b (c.map f) = (slots.assign b c).map f := by
  rw [assign, map, map, assign, Array.map_setIfInBounds]

theorem cell_map (f : α → β) (slots : Slots α) (b : Nat) :
    (slots.map f).cell b = Option.map f <$> slots.cell b := by
  rw [cell, cell, size_map, map, Array.getElem?_map]
  cases slots.cells[b]? <;> rfl

theorem get_map (f : α → β) (slots : Slots α) (b : Nat) : (slots.map f).get b = f <$> slots.get b := by
  rw [get, get, cell_map]
  cases slots.cell b with
  | error fault => rfl
  | ok content => cases content <;> rfl

theorem read_map {γ : Type} (f : α → β) (slots : Slots α) (g : β → γ) :
    (fun b => g <$> (slots.map f).get b) = fun b => (g ∘ f) <$> slots.get b := by
  funext b
  rw [get_map]
  cases slots.get b <;> rfl

theorem put_map (f : α → β) (slots : Slots α) (b : Nat) (x : α) :
    (slots.map f).put b (f x) = map f <$> slots.put b x := by
  rw [put, put, cell_map, ← Option.map_some, assign_map]
  cases slots.cell b <;> rfl

theorem takeCell_map (f : α → β) (slots : Slots α) (b : Nat) :
    (slots.map f).takeCell b = Prod.map (Option.map f) (map f) <$> slots.takeCell b := by
  rw [takeCell, takeCell, cell_map, ← Option.map_none, assign_map]
  cases slots.cell b <;> rfl

theorem take_map (f : α → β) (slots : Slots α) (b : Nat) :
    (slots.map f).take b = Prod.map f (map f) <$> slots.take b := by
  rw [take, take, get_map, ← Option.map_none, assign_map]
  cases slots.get b <;> rfl

theorem exchange_map (f : α → β) (slots : Slots α) (b : Nat) (x : α) :
    (slots.map f).exchange b (f x) = Prod.map f (map f) <$> slots.exchange b x := by
  rw [exchange, exchange, get_map, ← Option.map_some, assign_map]
  cases slots.get b <;> rfl

theorem runOn_relocate_map (f : α → β) (slots : Slots α) (source target : Nat) :
    (relocate source target).runOn (slots.map f) =
      Prod.map id (map f) ((relocate source target).runOn slots) := by
  rw [relocate, relocate, ActionT.runOn_ofStep, ActionT.runOn_ofStep, takeCell_map]
  cases slots.takeCell source with
  | error fault => rfl
  | ok taken =>
    obtain ⟨content, rest⟩ := taken
    simp only [Functor.map, Except.map, Prod.map_apply, cell_map]
    cases rest.cell target with
    | error fault => rfl
    | ok _ => simp only [assign_map, Prod.map_apply, id_eq]

theorem perform_map (f : α → β) (moves : List Move) : ∀ (slots : Slots α) (hand : Option α),
    (slots.map f).perform (hand.map f) moves = map f <$> slots.perform hand moves := by
  induction moves with
  | nil => exact fun slots hand => by rw [perform_nil, perform_nil]; rfl
  | cons m moves ih =>
    intro slots hand
    cases m with
    | swap b =>
      cases hand with
      | none => rfl
      | some x =>
        rw [Option.map_some, perform, perform, exchange_map, bind_map_left, map_bind]
        cases slots.exchange b x with
        | error fault => rfl
        | ok exchanged => exact ih exchanged.2 (some exchanged.1)
    | settle b =>
      cases hand with
      | none => rfl
      | some x =>
        rw [Option.map_some, perform, perform, put_map, bind_map_left, map_bind]
        cases slots.put b x with
        | error fault => rfl
        | ok settled => exact ih settled none
    | shift source target =>
      rw [perform, perform, runOn_relocate_map]
      cases hrun : (relocate source target).runOn slots with
      | mk outcome shifted =>
        cases outcome with
        | error fault => rfl
        | ok _ => exact ih shifted hand

end Slots

def Seated.map (f : α → β) (seated : Seated α) : Seated β where
  seating := ⟨seated.seating.table, seated.seating.slots.map f⟩
  moves := seated.moves
  landed := seated.landed

def Unseated.map (f : α → β) (unseated : Unseated α) : Unseated β where
  seating := ⟨unseated.seating.table, unseated.seating.slots.map f⟩
  moves := unseated.moves
  element := f unseated.element

namespace Seating

def map (f : α → β) (s : Seating α) : Seating β where
  table := s.table
  slots := s.slots.map f

theorem InStep.map {s : Seating α} (h : s.InStep) (f : α → β) : (s.map f).InStep where
  shaped := h.shaped
  size_slots := (Slots.size_map f s.slots).trans h.size_slots
  occupied i := by
    rw [Seating.map, Slots.occupant_map, Option.isSome_map]
    exact h.occupied i
  count := by
    rw [Seating.map, Slots.elements_map, List.length_map]
    exact h.count
  count_le := h.count_le

theorem Orderly.map {s : Seating α} {hashOf : β → UInt64} (f : α → β) (h : s.Orderly (hashOf ∘ f)) :
    (s.map f).Orderly hashOf where
  toInStep := h.toInStep.map f
  inOrder hprobed := by
    have hprofile : (s.slots.map f).profile hashOf = s.slots.profile (hashOf ∘ f) := by
      funext i
      rw [Slots.profile, Slots.profile, Slots.occupant_map, Slots.size_map, Option.map_map]
      rfl
    rw [Seating.map, hprofile, Slots.size_map]
    exact h.inOrder hprobed

theorem vacant_map (f : α → β) (capacity : Nat) (seed : UInt64) : vacant capacity seed = map f <$> vacant capacity seed := by
  rw [vacant, vacant, map_bind]
  congr 1
  funext table
  rw [← Slots.map_vacant f]
  rfl

theorem clear_map (f : α → β) (s : Seating α) : (s.map f).clear = s.clear.map f := by
  simp only [clear, map, Slots.clear_map]

theorem find_map (f : α → β) (s : Seating α) (hash : UInt64) (isMatch : β → Bool) :
    (s.map f).find hash isMatch = s.find hash (isMatch ∘ f) := by
  rw [find, find, map, Slots.read_map]

theorem seat_map (f : α → β) (s : Seating α) (hashOf : β → UInt64) (x : α) (hash : UInt64) :
    (s.map f).seat hashOf (f x) hash = Seated.map f <$> s.seat (hashOf ∘ f) x hash := by
  rw [seat, seat, map, Slots.read_map, map_bind]
  congr 1
  funext placed
  rw [← Option.map_some, Slots.perform_map, bind_map_left, map_bind]
  rfl

theorem unseat_map (f : α → β) (s : Seating α) (hashOf : β → UInt64) (b : Nat) :
    (s.map f).unseat hashOf b = Unseated.map f <$> s.unseat (hashOf ∘ f) b := by
  rw [unseat, unseat, map, map_bind]
  congr 1
  funext table
  rw [Slots.take_map, bind_map_left, map_bind]
  congr 1
  funext ⟨x, rest⟩
  simp only [Prod.map_apply, Slots.read_map]
  rw [map_bind]
  congr 1
  funext ⟨closed, moves⟩
  rw [← Option.map_none, Slots.perform_map, bind_map_left, map_bind]
  rfl

theorem abandon_map (f : α → β) (s : Seating α) (b : Nat) :
    (s.map f).abandon b = Unseated.map f <$> s.abandon b := by
  rw [abandon, abandon, map, map_bind]
  congr 1
  funext table
  rw [Slots.take_map, bind_map_left, map_bind]
  congr 1
  funext ⟨x, rest⟩
  simp only [Prod.map_apply]
  rw [← Option.map_none, Slots.perform_map, bind_map_left, map_bind]
  rfl

end Seating

end RobinHood
