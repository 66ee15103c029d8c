import RobinHood.Proofs.Seating.Basic

/-!
# Removing an element

A scan moves occupants back into the gap, which moves on with each; whatever the hashes are, it comes to
the end of the run with the same elements. In an orderly seating the gap that a removal leaves is first
pending: filling it with some displacement would put the table in order again. While it is, the occupant
behind it either moves into it, which leaves the next pending gap, or has no use for it. From then on the
table is in order, although the scan does not know, and finds nobody to move.
-/

namespace RobinHood

open Cyclic (ahead next displacement)

variable {α : Type} {hashOf : α → UInt64}

/-! ### Steps of the scan -/

namespace Bitmap

variable {occupancy : Bitmap} {hashAt : Nat → Except Fault UInt64} {n fuel hole b : Nat} {hash : UInt64}

theorem closeGap_gap (hn : occupancy.size = n) (hb : b < n) (hbit : occupancy.bit b = false) :
    closeGap hashAt (fuel + 1) occupancy hole b = .ok (occupancy, []) := by
  subst hn
  rw [closeGap, isSet_of_lt hb, hbit]
  rfl

theorem closeGap_skip (hn : occupancy.size = n) (hb : b < n) (hbit : occupancy.bit b = true)
    (hhash : hashAt b = .ok hash) (hle : displacement n hash b ≤ displacement n hash hole) :
    closeGap hashAt (fuel + 1) occupancy hole b = closeGap hashAt fuel occupancy hole (next n b) := by
  subst hn
  rw [closeGap, isSet_of_lt hb, hbit, hhash]
  simp [bind, Except.bind, Nat.not_lt.mpr hle]

theorem closeGap_shift {raised shifted closed : Bitmap} {moves : List Move} (hn : occupancy.size = n)
    (hb : b < n) (hbit : occupancy.bit b = true) (hhash : hashAt b = .ok hash)
    (hlt : displacement n hash hole < displacement n hash b) (hset : occupancy.set hole = .ok raised)
    (hclear : raised.clear b = .ok shifted)
    (hrest : closeGap hashAt fuel shifted b (next n b) = .ok (closed, moves)) :
    closeGap hashAt (fuel + 1) occupancy hole b = .ok (closed, .shift b hole :: moves) := by
  subst hn
  rw [closeGap, isSet_of_lt hb, hbit, hhash]
  simp [bind, Except.bind, pure, Except.pure, hlt, hset, hclear, hrest]

end Bitmap

namespace Seating

variable {s : Seating α} {occupancy : Bitmap} {hashAt : Nat → Except Fault UInt64} {slots : Slots α}
  {hole i k : Nat} {x y : α}

/-- A scan is `i` buckets past the vacant slot `hole` and `k` buckets before the next vacant one. The
hashes are those of the table before the scan, the bitmap and the slots those of this moment. -/
private structure Scan (hashOf : α → UInt64) (occupancy : Bitmap) (hashAt : Nat → Except Fault UInt64)
    (slots : Slots α) (hole i k : Nat) : Prop where
  lt : hole < slots.size
  marks : occupancy.Marks slots
  free : slots.occupant hole = none
  run : ∀ j < k, ∃ x, slots.occupant (ahead slots.size hole (i + j)) = some x ∧
    hashAt (ahead slots.size hole (i + j)) = .ok (hashOf x)
  gap : slots.occupant (ahead slots.size hole (i + k)) = none
  room : i + k < slots.size

private theorem Scan.ahead_lt (h : Scan hashOf occupancy hashAt slots hole i k) :
    ahead slots.size hole i < slots.size :=
  Cyclic.ahead_lt (Nat.zero_lt_of_lt h.lt) _ _

private theorem Scan.resident (h : Scan hashOf occupancy hashAt slots hole i (k + 1)) :
    ∃ y, slots.occupant (ahead slots.size hole i) = some y ∧
      hashAt (ahead slots.size hole i) = .ok (hashOf y) ∧
      occupancy.bit (ahead slots.size hole i) = true := by
  obtain ⟨y, hy, hhash⟩ := h.run 0 (Nat.succ_pos k)
  exact ⟨y, hy, hhash, by rw [h.marks.bit, ← Nat.add_zero i, hy]; rfl⟩

private theorem Scan.at_gap (h : Scan hashOf occupancy hashAt slots hole i 0) :
    occupancy.bit (ahead slots.size hole i) = false := by
  rw [h.marks.bit, ← Nat.add_zero i, h.gap]
  rfl

/-- What closing a gap comes to: moves that leave the same elements. -/
private structure Closes (slots : Slots α) (closed : Bitmap) (moves : List Move) (after : Slots α) : Prop where
  performed : slots.perform none moves = .ok after
  marks : closed.Marks after
  size : after.size = slots.size
  elements : after.elements.Perm slots.elements

private theorem Scan.skip (h : Scan hashOf occupancy hashAt slots hole i (k + 1)) :
    Scan hashOf occupancy hashAt slots hole (i + 1) k where
  lt := h.lt
  marks := h.marks
  free := h.free
  run j hj := by
    rw [Nat.add_right_comm]
    exact h.run (j + 1) (by omega)
  gap := by
    rw [Nat.add_right_comm]
    exact h.gap
  room := by
    have hroom := h.room
    omega

/-- The occupant that the scan is at moves into the gap, and the scan goes on behind the gap it leaves. -/
private theorem Scan.shift (h : Scan hashOf occupancy hashAt slots hole i (k + 1))
    (hy : slots.occupant (ahead slots.size hole i) = some y) :
    ∃ raised shifted, occupancy.set hole = .ok raised ∧ raised.clear (ahead slots.size hole i) = .ok shifted ∧
      Scan hashOf shifted hashAt ((slots.assign (ahead slots.size hole i) none).assign hole (some y))
        (ahead slots.size hole i) 1 k := by
  have hroom := h.room
  have hne : ahead slots.size hole i ≠ hole := by
    intro heq
    rw [heq, h.free] at hy
    cases hy
  have hsize : ((slots.assign (ahead slots.size hole i) none).assign hole (some y)).size = slots.size := by
    rw [Slots.size_assign, Slots.size_assign]
  have hmoved := Slots.occupant_moved h.ahead_lt h.lt (some y)
  have hkeep : ∀ j, i + (j + 1) < slots.size →
      ((slots.assign (ahead slots.size hole i) none).assign hole (some y)).occupant
        (ahead slots.size (ahead slots.size hole i) (1 + j)) =
          slots.occupant (ahead slots.size hole (i + (j + 1))) := by
    intro j hj
    rw [Cyclic.ahead_ahead, Nat.add_comm 1 j, hmoved, if_neg, if_neg]
    · exact Cyclic.ahead_ne hj (by omega) (by omega)
    · exact Cyclic.ahead_ne_self h.lt (by omega) hj
  obtain ⟨raised, hset, hraised⟩ := h.marks.set h.lt (Slots.size_assign slots hole (some y))
    (Slots.isSome_assign h.lt (some y))
  obtain ⟨shifted, hclear, hshifted⟩ := hraised.clear (by rw [Slots.size_assign]; exact h.ahead_lt)
    (hsize.trans (Slots.size_assign slots hole (some y)).symm) fun i => by
      rw [hmoved, Slots.isSome_assign h.lt]
      by_cases hi : i = hole
      · rw [if_pos hi, if_pos hi, if_neg (hi ▸ hne.symm)]
      · rw [if_neg hi, if_neg hi]
        split <;> rfl
  refine ⟨raised, shifted, hset, hclear, ?_⟩
  constructor
  · rw [hsize]
    exact h.ahead_lt
  · exact hshifted
  · rw [hmoved, if_neg hne, if_pos rfl]
  · intro j hj
    obtain ⟨x, hx, hhash⟩ := h.run (j + 1) (by omega)
    refine ⟨x, ?_, ?_⟩
    · rw [hsize, hkeep j (by omega), hx]
    · rw [hsize, Cyclic.ahead_ahead, Nat.add_comm 1 j, hhash]
  · rw [hsize, hkeep k (by omega), h.gap]
  · rw [hsize]
    omega

private theorem Closes.of_shift {b : Nat} {closed : Bitmap} {moves : List Move} {after : Slots α}
    (hy : slots.occupant b = some y) (hhole : hole < slots.size) (hfree : slots.occupant hole = none)
    (h : Closes ((slots.assign b none).assign hole (some y)) closed moves after) :
    Closes slots closed (.shift b hole :: moves) after where
  performed := by rw [Slots.perform_shift (Slots.lt_size_of_occupant hy) hhole, hy, h.performed]
  marks := h.marks
  size := by rw [h.size, Slots.size_assign, Slots.size_assign]
  elements := h.elements.trans (Slots.elements_move hy hhole hfree)

/-! ### Order during the scan -/

/-- The slots are in order, or would be with some displacement in the gap right behind the scan. -/
private def Mending (hashOf : α → UInt64) (slots : Slots α) (hole i : Nat) : Prop :=
  (slots.profile hashOf).InOrder slots.size ∨
    i = 1 ∧ ∃ e, Cyclic.Profile.InOrder slots.size (Function.update (slots.profile hashOf) hole (some e))

private theorem Scan.profile_eq (hy : slots.occupant (ahead slots.size hole i) = some y) :
    slots.profile hashOf (ahead slots.size hole i) =
      some (displacement slots.size (hashOf y) (ahead slots.size hole i)) := by
  rw [Slots.profile, hy]
  rfl

/-- Once the slots are in order, nobody has a use for the gap. -/
private theorem Scan.displacement_le (h : Scan hashOf occupancy hashAt slots hole i (k + 1))
    (horder : (slots.profile hashOf).InOrder slots.size)
    (hy : slots.occupant (ahead slots.size hole i) = some y) :
    displacement slots.size (hashOf y) (ahead slots.size hole i) ≤ displacement slots.size (hashOf y) hole := by
  have hroom := h.room
  have hnear : displacement slots.size (hashOf y) (ahead slots.size hole i) < i :=
    horder.lt_of_hole h.lt (Slots.profile_eq_none.mpr h.free) (Scan.profile_eq hy)
  have hfar : displacement slots.size (hashOf y) hole =
      slots.size + displacement slots.size (hashOf y) (ahead slots.size hole i) - i :=
    Cyclic.distance_back_of_lt (Cyclic.home_lt (by omega) _) h.lt (by omega) hnear
  omega

private theorem Scan.displacement_back {f : Nat} (h : Scan hashOf occupancy hashAt slots hole 1 k)
    (hf : displacement slots.size (hashOf y) (ahead slots.size hole 1) = f + 1) :
    displacement slots.size (hashOf y) hole = f := by
  have hroom := h.room
  have hle : 1 ≤ displacement slots.size (hashOf y) (ahead slots.size hole 1) := by omega
  have hback : displacement slots.size (hashOf y) hole =
      displacement slots.size (hashOf y) (ahead slots.size hole 1) - 1 :=
    Cyclic.distance_back_of_le (Cyclic.home_lt (by omega) _) h.lt hle
  omega

/-- A pending gap behind which nobody is away from home is no gap in the order. -/
private theorem Scan.mended {i : Nat} (h : Scan hashOf occupancy hashAt slots hole i k)
    (hmending : Mending hashOf slots hole i)
    (hnext : ∀ f, slots.profile hashOf (ahead slots.size hole i) = some f → i = 1 → f = 0) :
    (slots.profile hashOf).InOrder slots.size := by
  obtain horder | ⟨rfl, e, hpending⟩ := hmending
  · exact horder
  · exact hpending.dig (Slots.profile_eq_none.mpr h.free) fun f hf => hnext f hf rfl

private theorem Scan.mending_shift (h : Scan hashOf occupancy hashAt slots hole i (k + 1))
    (hmending : Mending hashOf slots hole i) (hy : slots.occupant (ahead slots.size hole i) = some y)
    (hlt : displacement slots.size (hashOf y) hole <
      displacement slots.size (hashOf y) (ahead slots.size hole i)) :
    Mending hashOf ((slots.assign (ahead slots.size hole i) none).assign hole (some y))
      (ahead slots.size hole i) 1 := by
  obtain horder | ⟨rfl, e, hpending⟩ := hmending
  · exact absurd (h.displacement_le horder hy) (Nat.not_le.mpr hlt)
  · have hne : hole ≠ ahead slots.size hole 1 := by
      intro heq
      rw [← heq, h.free] at hy
      cases hy
    obtain ⟨f, hf⟩ := Nat.exists_eq_succ_of_ne_zero (Nat.ne_zero_of_lt hlt)
    refine .inr ⟨rfl, f + 1, ?_⟩
    rw [Slots.profile_assign (by rw [Slots.size_assign]; exact h.lt), Slots.profile_assign h.ahead_lt,
      Slots.size_assign, Slots.size_assign, Option.map_some, h.displacement_back hf, Option.map_none,
      Function.update_comm hne.symm]
    exact hpending.shift h.lt (Slots.profile_eq_none.mpr h.free) (by
      rw [Cyclic.next_eq_ahead, Scan.profile_eq hy, hf])

/-- The scan comes to an end, and has put the slots in order if the gap was pending. -/
private theorem Scan.closes {k : Nat} : ∀ {fuel hole i : Nat} {occupancy : Bitmap} {slots : Slots α},
    k < fuel → Scan hashOf occupancy hashAt slots hole i k →
    ∃ closed moves after,
      Bitmap.closeGap hashAt fuel occupancy hole (ahead slots.size hole i) = .ok (closed, moves) ∧
      Closes slots closed moves after ∧
      (Mending hashOf slots hole i → (after.profile hashOf).InOrder after.size) := by
  induction k with
  | zero =>
    intro fuel hole i occupancy slots hfuel h
    obtain ⟨fuel, rfl⟩ : ∃ m, fuel = m + 1 := ⟨fuel - 1, by omega⟩
    refine ⟨occupancy, [], slots, Bitmap.closeGap_gap h.marks.size h.ahead_lt h.at_gap,
      ⟨Slots.perform_nil .., h.marks, rfl, .refl _⟩, fun hmending => h.mended hmending fun f hf _ => ?_⟩
    cases (Slots.profile_eq_none.mpr h.gap).symm.trans hf
  | succ k ih =>
    intro fuel hole i occupancy slots hfuel h
    obtain ⟨fuel, rfl⟩ : ∃ m, fuel = m + 1 := ⟨fuel - 1, by omega⟩
    obtain ⟨y, hy, hhash, hbit⟩ := h.resident
    by_cases hlt : displacement slots.size (hashOf y) hole <
        displacement slots.size (hashOf y) (ahead slots.size hole i)
    · obtain ⟨raised, shifted, hset, hclear, hscan⟩ := h.shift hy
      obtain ⟨closed, moves, after, hwalk, hcloses, horder⟩ := ih (by omega : k < fuel) hscan
      rw [Slots.size_assign, Slots.size_assign] at hwalk
      exact ⟨closed, .shift (ahead slots.size hole i) hole :: moves, after,
        Bitmap.closeGap_shift h.marks.size h.ahead_lt hbit hhash hlt hset hclear hwalk,
        hcloses.of_shift hy h.lt h.free, fun hmending => horder (h.mending_shift hmending hy hlt)⟩
    · rw [Nat.not_lt] at hlt
      obtain ⟨closed, moves, after, hwalk, hcloses, horder⟩ := ih (by omega : k < fuel) h.skip
      refine ⟨closed, moves, after, ?_, hcloses, fun hmending => horder (.inl (h.mended hmending ?_))⟩
      · rw [Bitmap.closeGap_skip h.marks.size h.ahead_lt hbit hhash hlt, Cyclic.next_ahead, hwalk]
      · rintro f hf rfl
        rw [Scan.profile_eq hy] at hf
        obtain rfl := Option.some.inj hf
        by_contra haway
        obtain ⟨f, hf⟩ := Nat.exists_eq_succ_of_ne_zero haway
        have hback := h.displacement_back hf
        omega

/-! ### The whole removal -/

structure Unseats (s : Seating α) (bucket : Nat) (unseated : Unseated α) : Prop where
  inStep : unseated.seating.InStep
  like : unseated.seating.table.Like s.table
  element : s.slots.occupant bucket = some unseated.element
  elements : s.slots.elements.Perm (unseated.element :: unseated.seating.slots.elements)
  performed : (s.slots.assign bucket none).perform none unseated.moves = .ok unseated.seating.slots

variable {bucket : Nat}

theorem InStep.count_ne_zero (h : s.InStep) (hx : s.slots.occupant bucket = some x) : s.table.count ≠ 0 := by
  rw [h.count]
  exact Nat.ne_zero_of_lt (List.length_pos_of_mem (Slots.mem_elements.mpr ⟨bucket, hx⟩))

private theorem InStep.fill_dense (h : s.InStep) (hdense : s.table.layout = .dense)
    (hx : s.slots.occupant bucket = some x) :
    ∃ after,
      (s.slots.assign bucket none).perform none
        (Table.fillFromEnd { s.table with count := s.table.count - 1 } bucket) = .ok after ∧
      InStep ⟨{ s.table with count := s.table.count - 1 }, after⟩ ∧
      s.slots.elements.Perm (x :: after.elements) := by
  have hb := Slots.lt_size_of_occupant hx
  have hcount := h.count_ne_zero hx
  have hle := h.count_le
  have hlt : bucket < s.table.count := (h.lt_count_iff hdense).mpr (by rw [hx]; exact Option.some_ne_none x)
  have htaken := Slots.elements_perm_cons hx
  have hleading : ∀ i, (s.slots.occupant i).isSome = decide (i < s.table.count) := by
    intro i
    rw [Bool.eq_iff_iff, decide_eq_true_iff, h.lt_count_iff hdense, Option.isSome_iff_ne_none]
  have hlength : ∀ after : Slots α, s.slots.elements.Perm (x :: after.elements) →
      s.table.count - 1 = after.elements.length := by
    intro after hperm
    rw [h.count, hperm.length_eq, List.length_cons, Nat.add_sub_cancel]
  by_cases hlast : bucket = s.table.count - 1
  · refine ⟨s.slots.assign bucket none, ?_, ?_, htaken⟩
    · rw [Table.fillFromEnd, if_pos hlast, Slots.perform_nil]
    · refine h.of_prefix hdense (Slots.size_assign ..) (fun i => ?_) (hlength _ htaken) (by omega)
      rw [Slots.isSome_assign hb, hleading, hlast]
      by_cases hi : i = s.table.count - 1
      · rw [if_pos hi]
        exact decide_eq_false (by omega)
      · rw [if_neg hi, decide_eq_decide]
        omega
  · obtain ⟨y, hy⟩ := Option.ne_none_iff_exists'.mp
      ((h.lt_count_iff hdense).mp (by omega : s.table.count - 1 < s.table.count))
    have hlastsize : s.table.count - 1 < (s.slots.assign bucket none).size := by
      rw [Slots.size_assign]
      exact Slots.lt_size_of_occupant hy
    have hbsize : bucket < (s.slots.assign bucket none).size := by
      rwa [Slots.size_assign]
    have hy' : (s.slots.assign bucket none).occupant (s.table.count - 1) = some y := by
      rw [Slots.occupant_assign hb, Function.update_of_ne (Ne.symm hlast), hy]
    have hvacant : (s.slots.assign bucket none).occupant bucket = none := by
      rw [Slots.occupant_assign hb, Function.update_self]
    have hperm := htaken.trans ((Slots.elements_move hy' hbsize hvacant).symm.cons x)
    refine ⟨_, ?_, ?_, hperm⟩
    · rw [Table.fillFromEnd, if_neg hlast, Slots.perform_shift hlastsize hbsize, hy', Slots.perform_nil]
    · refine h.of_prefix hdense (by simp only [Slots.size_assign]) (fun i => ?_) (hlength _ hperm) (by omega)
      rw [Slots.occupant_moved hlastsize hbsize]
      by_cases hib : i = bucket
      · rw [if_pos hib]
        exact decide_eq_true (by omega)
      · rw [if_neg hib]
        by_cases hi : i = s.table.count - 1
        · rw [if_pos hi]
          exact decide_eq_false (by omega)
        · rw [if_neg hi, Slots.isSome_assign hb, if_neg hib, hleading, decide_eq_decide]
          omega

theorem InStep.vacate_probed (h : s.InStep) (hprobed : s.table.layout = .probed occupancy)
    (hx : s.slots.occupant bucket = some x) :
    ∃ lowered,
      s.table.vacate bucket = .ok { s.table with layout := .probed lowered, count := s.table.count - 1 } ∧
      lowered.Marks (s.slots.assign bucket none) := by
  have hb := Slots.lt_size_of_occupant hx
  obtain ⟨lowered, hclear, hlowered⟩ :=
    (h.marks hprobed).clear hb (Slots.size_assign s.slots bucket none) (Slots.isSome_assign hb none)
  refine ⟨lowered, ?_, hlowered⟩
  rw [Table.vacate]
  simp only [hprobed, hclear, if_neg (h.count_ne_zero hx), Functor.map, Except.map, bind, Except.bind, pure,
    Except.pure]

/-- In a dense seating both ways of taking an element out are the same. -/
theorem InStep.unseat_dense (hashOf : α → UInt64) (h : s.InStep) (hdense : s.table.layout = .dense)
    (hx : s.slots.occupant bucket = some x) :
    ∃ unseated, s.unseat hashOf bucket = .ok unseated ∧ s.abandon bucket = .ok unseated ∧
      unseated.seating.table.layout = .dense ∧ Unseats s bucket unseated ∧
      unseated.moves = Table.fillFromEnd { s.table with count := s.table.count - 1 } bucket := by
  obtain ⟨after, hperformed, hstep, hperm⟩ := h.fill_dense hdense hx
  obtain ⟨table, htable⟩ : ∃ table, table = { s.table with count := s.table.count - 1 } := ⟨_, rfl⟩
  rw [← htable] at hperformed hstep
  have hlayout : table.layout = .dense := by rw [htable, hdense]
  have hvacate : s.table.vacate bucket = .ok table := by
    rw [Table.vacate, htable]
    simp only [hdense, if_neg (h.count_ne_zero hx), bind, Except.bind, pure, Except.pure]
  have hlike : table.Like s.table := by
    rw [htable]
    exact ⟨rfl, rfl⟩
  refine ⟨⟨⟨table, after⟩, table.fillFromEnd bucket, x⟩, ?_, ?_, hlayout, ⟨hstep, hlike, hx, hperm, hperformed⟩,
    by rw [htable]⟩
  · rw [unseat, hvacate]
    simp only [Slots.take_of_occupant hx, Table.close, hlayout, hperformed, bind, Except.bind, pure, Except.pure]
  · rw [abandon, hvacate]
    simp only [Slots.take_of_occupant hx, Table.abandon, hlayout, hperformed, bind, Except.bind, pure,
      Except.pure]

private theorem InStep.scan {lowered : Bitmap} (h : s.InStep) (hashOf : α → UInt64) (hprobed : s.table.isDense = false)
    (hx : s.slots.occupant bucket = some x) (hlowered : lowered.Marks (s.slots.assign bucket none)) :
    ∃ k < s.slots.size, Scan hashOf lowered (fun i => hashOf <$> (s.slots.assign bucket none).get i)
      (s.slots.assign bucket none) bucket 1 k := by
  have hb := Slots.lt_size_of_occupant hx
  have hroom := h.length_lt hprobed
  have htaken := (Slots.elements_perm_cons hx).length_eq
  rw [List.length_cons] at htaken
  have hvacant : (s.slots.assign bucket none).occupant bucket = none := by
    rw [Slots.occupant_assign hb, Function.update_self]
  obtain ⟨k, hk, hgap, hrun⟩ := Slots.exists_gap (s.slots.assign bucket none)
    (by rw [Slots.size_assign]; omega) (Cyclic.next_lt (by rw [Slots.size_assign]; omega) bucket)
  have hkn := Slots.size_assign s.slots bucket none ▸ hk
  refine ⟨k, hkn, ?_, hlowered, hvacant, fun j hj => ?_, ?_, ?_⟩
  · rwa [Slots.size_assign]
  · obtain ⟨y, hy⟩ := Option.ne_none_iff_exists'.mp (hrun j hj)
    rw [Cyclic.ahead_next, Nat.add_comm] at hy
    exact ⟨y, hy, by rw [Slots.get_of_occupant hy]; rfl⟩
  · rwa [Cyclic.ahead_next, Nat.add_comm] at hgap
  · -- The table was not full, so a slot other than the new gap is vacant.
    obtain ⟨v, hv, hfree⟩ := Slots.exists_vacant hroom
    obtain ⟨steps, hsteps, rfl⟩ := Cyclic.exists_ahead hb hv
    have hpos : steps ≠ 0 := by
      rintro rfl
      rw [Cyclic.ahead_zero hb, hx] at hfree
      cases hfree
    by_contra hfull
    rw [Slots.size_assign] at hfull
    apply hrun (steps - 1) (by omega)
    rw [Cyclic.ahead_next, Nat.sub_add_cancel (by omega), Slots.size_assign, Slots.occupant_assign hb,
      Function.update_apply]
    split
    · rfl
    · exact hfree

private theorem InStep.unseat_probed (h : s.InStep) (hashOf : α → UInt64)
    (hprobed : s.table.layout = .probed occupancy) (hx : s.slots.occupant bucket = some x) :
    ∃ unseated, s.unseat hashOf bucket = .ok unseated ∧ Unseats s bucket unseated ∧
      (s.Orderly hashOf → unseated.seating.Orderly hashOf) := by
  have hb := Slots.lt_size_of_occupant hx
  have hdense := not_isDense_of_layout hprobed
  have htaken := Slots.elements_perm_cons hx
  have hsize := Slots.size_assign s.slots bucket none
  obtain ⟨lowered, hvacate, hlowered⟩ := h.vacate_probed hprobed hx
  obtain ⟨k, hk, hscan⟩ := h.scan hashOf hdense hx hlowered
  obtain ⟨closed, moves, after, hwalk, ⟨hperformed, hmarks, hafter, helements⟩, horder⟩ := hscan.closes hk
  have hperm := htaken.trans (helements.symm.cons x)
  have hstep : InStep ⟨{ s.table with layout := .probed closed, count := s.table.count - 1 }, after⟩ := by
    refine h.of_marks hprobed (hafter.trans hsize) hmarks ?_ (Nat.le_trans (Nat.sub_le ..) h.count_le)
    rw [h.count, hperm.length_eq, List.length_cons, Nat.add_sub_cancel]
  rw [hsize] at hwalk
  refine ⟨⟨⟨{ s.table with layout := .probed closed, count := s.table.count - 1 }, after⟩, moves, x⟩, ?_,
    ⟨hstep, ⟨rfl, rfl⟩, hx, hperm, hperformed⟩, fun horderly => ⟨hstep, fun _ => horder (.inr ⟨rfl, ?_⟩)⟩⟩
  · rw [unseat, hvacate]
    simp only [Slots.take_of_occupant hx, Table.close, hlowered.size, hsize, Cyclic.next_eq_ahead, hwalk, hperformed,
      bind, Except.bind, pure, Except.pure]
  · have hself : s.slots.profile hashOf bucket = some (displacement s.slots.size (hashOf x) bucket) := by
      rw [Slots.profile, hx]
      rfl
    refine ⟨displacement s.slots.size (hashOf x) bucket, ?_⟩
    rw [Slots.profile_assign hb, Function.update_idem, ← hself, Function.update_eq_self, hsize]
    exact horderly.inOrder hdense

/-- An element can be taken out of the bucket it occupies, whatever the hashes are. -/
theorem InStep.unseat (h : s.InStep) (hashOf : α → UInt64) (hx : s.slots.occupant bucket = some x) :
    ∃ unseated, s.unseat hashOf bucket = .ok unseated ∧ Unseats s bucket unseated := by
  cases hlayout : s.table.layout with
  | dense =>
    obtain ⟨unseated, hunseat, -, -, hunseats, -⟩ := h.unseat_dense hashOf hlayout hx
    exact ⟨unseated, hunseat, hunseats⟩
  | probed occupancy =>
    obtain ⟨unseated, hunseat, hunseats, -⟩ := h.unseat_probed hashOf hlayout hx
    exact ⟨unseated, hunseat, hunseats⟩

/-- In an orderly seating every other element stays where a search finds it. -/
theorem Orderly.unseat (h : s.Orderly hashOf) (hx : s.slots.occupant bucket = some x) :
    ∃ unseated, s.unseat hashOf bucket = .ok unseated ∧ Unseats s bucket unseated ∧
      unseated.seating.Orderly hashOf := by
  cases hlayout : s.table.layout with
  | dense =>
    obtain ⟨unseated, hunseat, -, hdense, hunseats, -⟩ := h.unseat_dense hashOf hlayout hx
    refine ⟨unseated, hunseat, hunseats, hunseats.inStep, fun hprobed => ?_⟩
    cases (isDense_of_layout hdense).symm.trans hprobed
  | probed occupancy =>
    obtain ⟨unseated, hunseat, hunseats, horder⟩ := h.unseat_probed hashOf hlayout hx
    exact ⟨unseated, hunseat, hunseats, horder h⟩

/-- An element can also be taken out without closing the gap; searches may then miss elements. -/
theorem InStep.abandon (h : s.InStep) (hx : s.slots.occupant bucket = some x) :
    ∃ unseated, s.abandon bucket = .ok unseated ∧ Unseats s bucket unseated := by
  cases hlayout : s.table.layout with
  | dense =>
    obtain ⟨unseated, -, habandon, -, hunseats, -⟩ := h.unseat_dense (fun _ => 0) hlayout hx
    exact ⟨unseated, habandon, hunseats⟩
  | probed occupancy =>
    obtain ⟨lowered, hvacate, hlowered⟩ := h.vacate_probed hlayout hx
    have hperm := Slots.elements_perm_cons hx
    have hperformed := Slots.perform_nil (s.slots.assign bucket none) none
    refine ⟨⟨⟨{ s.table with layout := .probed lowered, count := s.table.count - 1 }, s.slots.assign bucket none⟩,
      [], x⟩, ?_, ?_, ⟨rfl, rfl⟩, hx, hperm, hperformed⟩
    · rw [Seating.abandon, hvacate]
      simp only [Slots.take_of_occupant hx, Table.abandon, hperformed, bind, Except.bind, pure, Except.pure]
    · refine h.of_marks hlayout (Slots.size_assign ..) hlowered ?_ (Nat.le_trans (Nat.sub_le ..) h.count_le)
      rw [h.count, hperm.length_eq, List.length_cons, Nat.add_sub_cancel]

end Seating

end RobinHood
