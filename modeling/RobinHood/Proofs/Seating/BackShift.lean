import Mathlib.Data.Nat.Find
import RobinHood.Proofs.Seating.Invariant

/-!
# How the gap of a removed element closes

In an orderly seating those behind the gap who are away from home move one bucket back each, one after the
other, up to a free bucket or an occupant at home. The scan cannot tell that it is done there: it reads on to
the end of the run, where everyone sits closer to home than the gap is.
-/

namespace RobinHood

open Cyclic (ahead home next displacement)

variable {α : Type} {hashOf : α → UInt64}

/-- The occupants of the `count` buckets behind `bucket` move one bucket back, the nearest first. -/
def Move.backshift (n bucket count : Nat) : List Move :=
  (List.range count).map fun j => .shift (ahead n bucket (j + 1)) (ahead n bucket j)

theorem Move.backshift_succ {n bucket : Nat} (hbucket : bucket < n) (count : Nat) :
    backshift n bucket (count + 1) = .shift (next n bucket) bucket :: backshift n (next n bucket) count := by
  rw [backshift, backshift, List.range_succ_eq_map, List.map_cons, List.map_map, Cyclic.ahead_zero hbucket]
  congr 1
  apply List.map_congr_left
  intro j _
  rw [Function.comp_apply, Cyclic.ahead_next, Cyclic.ahead_next]

theorem Move.take_backshift {n bucket count j : Nat} (hj : j ≤ count) :
    (backshift n bucket count).take j = backshift n bucket j := by
  rw [backshift, backshift, ← List.map_take, List.take_range, Nat.min_eq_left hj]

/-! ### The scan -/

namespace Bitmap

variable {occupancy : Bitmap} {hashAt : Nat → Except Fault UInt64} {hole : Nat}

/-- Of the occupants in the run behind a clear bit, the first `count` are away from home; from there on, each
sits closer to home than the bit in front of them is. -/
structure Stretch (occupancy : Bitmap) (hashAt : Nat → Except Fault UInt64) (hole count rest : Nat) : Prop where
  lt : hole < occupancy.size
  away : ∀ j < count, occupancy.bit (ahead occupancy.size hole (j + 1)) = true ∧
    ∃ hash, hashAt (ahead occupancy.size hole (j + 1)) = .ok hash ∧
      displacement occupancy.size hash (ahead occupancy.size hole (j + 1)) ≠ 0
  settled : ∀ j < rest, occupancy.bit (ahead occupancy.size hole (count + 1 + j)) = true ∧
    ∃ hash, hashAt (ahead occupancy.size hole (count + 1 + j)) = .ok hash ∧
      displacement occupancy.size hash (ahead occupancy.size hole (count + 1 + j)) ≤ j
  gap : occupancy.bit (ahead occupancy.size hole (count + 1 + rest)) = false
  room : count + 1 + rest < occupancy.size

/-- Nobody moves who sits closer to home than the gap is. -/
theorem closeGap_settled {rest : Nat} : ∀ {fuel i : Nat}, rest < fuel → hole < occupancy.size →
    (∀ j < rest, occupancy.bit (ahead occupancy.size hole (i + j)) = true ∧
      ∃ hash, hashAt (ahead occupancy.size hole (i + j)) = .ok hash ∧
        displacement occupancy.size hash (ahead occupancy.size hole (i + j)) < i + j) →
    occupancy.bit (ahead occupancy.size hole (i + rest)) = false → i + rest < occupancy.size →
    closeGap hashAt fuel occupancy hole (ahead occupancy.size hole i) = .ok (occupancy, []) := by
  induction rest with
  | zero =>
    intro fuel i hfuel hhole _ hgap _
    obtain ⟨fuel, rfl⟩ : ∃ m, fuel = m + 1 := ⟨fuel - 1, by omega⟩
    exact closeGap_gap rfl (Cyclic.ahead_lt (by omega) hole i) hgap
  | succ rest ih =>
    intro fuel i hfuel hhole hsettled hgap hroom
    obtain ⟨fuel, rfl⟩ : ∃ m, fuel = m + 1 := ⟨fuel - 1, by omega⟩
    obtain ⟨hbit, hash, hhash, hlt⟩ := hsettled 0 (Nat.succ_pos rest)
    have hback : displacement occupancy.size hash hole =
        occupancy.size + displacement occupancy.size hash (ahead occupancy.size hole i) - i :=
      Cyclic.distance_back_of_lt (Cyclic.home_lt (by omega) hash) hhole (by omega) hlt
    rw [closeGap_skip rfl (Cyclic.ahead_lt (by omega) hole i) hbit hhash (by omega), Cyclic.next_ahead]
    apply ih (by omega) hhole
    · intro j hj
      rw [Nat.add_right_comm]
      exact hsettled (j + 1) (by omega)
    · rwa [Nat.add_right_comm]
    · omega

/-- With the first occupant of the stretch in the gap, the stretch begins one bucket on. -/
theorem Stretch.advance {raised shifted : Bitmap} {count rest : Nat}
    (h : occupancy.Stretch hashAt hole (count + 1) rest) (hset : occupancy.set hole = .ok raised)
    (hclear : raised.clear (next occupancy.size hole) = .ok shifted) :
    shifted.size = occupancy.size ∧ shifted.Stretch hashAt (next occupancy.size hole) count rest := by
  have hn : 0 < occupancy.size := Nat.zero_lt_of_lt h.lt
  have hnext := Cyclic.next_lt hn hole
  have hroom := h.room
  obtain ⟨_, hset', hsize, hbit⟩ := set_of_lt h.lt
  cases hset.symm.trans hset'
  obtain ⟨_, hclear', hsize', hbit'⟩ := clear_of_lt (by rwa [hsize] : next occupancy.size hole < raised.size)
  cases hclear.symm.trans hclear'
  have hsame : shifted.size = occupancy.size := hsize'.trans hsize
  have hother : ∀ j, 1 ≤ j → j + 1 < occupancy.size → shifted.bit (ahead occupancy.size (next occupancy.size hole) j) =
      occupancy.bit (ahead occupancy.size hole (j + 1)) := by
    intro j hj hlt
    rw [Cyclic.ahead_next, hbit', hbit, if_neg (Cyclic.ahead_ne_next (by omega) hlt),
      if_neg (Cyclic.ahead_ne_self h.lt (Nat.succ_pos j) hlt)]
  refine ⟨hsame, ?_⟩
  constructor
  · rwa [hsame]
  · intro j hj
    rw [hsame, hother (j + 1) (by omega) (by omega), Cyclic.ahead_next]
    exact h.away (j + 1) (by omega)
  · intro j hj
    rw [hsame, hother (count + 1 + j) (by omega) (by omega), Cyclic.ahead_next, Nat.add_right_comm (count + 1) j 1]
    exact h.settled j hj
  · rw [hsame, hother (count + 1 + rest) (by omega) (by omega), Nat.add_right_comm (count + 1) rest 1]
    exact h.gap
  · rw [hsame]
    omega

/-- The scan moves those who are away from home, and goes on without a move. -/
theorem closeGap_backshift {rest : Nat} (count : Nat) : ∀ {fuel hole : Nat} {occupancy : Bitmap},
    count + rest < fuel → occupancy.Stretch hashAt hole count rest →
    ∃ closed, closeGap hashAt fuel occupancy hole (next occupancy.size hole) =
      .ok (closed, Move.backshift occupancy.size hole count) := by
  induction count with
  | zero =>
    intro fuel hole occupancy hfuel h
    have hroom := h.room
    refine ⟨occupancy, closeGap_settled (by omega) h.lt ?_ h.gap h.room⟩
    intro j hj
    obtain ⟨hbit, hash, hhash, hle⟩ := h.settled j hj
    rw [Nat.zero_add] at hbit hhash hle
    exact ⟨hbit, hash, hhash, by omega⟩
  | succ count ih =>
    intro fuel hole occupancy hfuel h
    obtain ⟨fuel, rfl⟩ : ∃ m, fuel = m + 1 := ⟨fuel - 1, by omega⟩
    have hn : 0 < occupancy.size := Nat.zero_lt_of_lt h.lt
    have hnext := Cyclic.next_lt hn hole
    obtain ⟨hbit, hash, hhash, haway⟩ := h.away 0 (Nat.succ_pos count)
    have hback : displacement occupancy.size hash hole =
        displacement occupancy.size hash (ahead occupancy.size hole 1) - 1 :=
      Cyclic.distance_back_of_le (Cyclic.home_lt hn hash) h.lt (Nat.one_le_iff_ne_zero.mpr haway)
    have hlt : displacement occupancy.size hash hole < displacement occupancy.size hash (next occupancy.size hole) := by
      rw [hback]
      exact Nat.sub_lt (Nat.pos_of_ne_zero haway) Nat.one_pos
    obtain ⟨raised, hset, hsize, -⟩ := set_of_lt h.lt
    obtain ⟨shifted, hclear, -⟩ := clear_of_lt (by rwa [hsize] : next occupancy.size hole < raised.size)
    obtain ⟨hsame, hstretch⟩ := h.advance hset hclear
    obtain ⟨closed, hrest⟩ := ih (by omega : count + rest < fuel) hstretch
    rw [hsame] at hrest
    exact ⟨closed, by rw [closeGap_shift rfl hnext hbit hhash hlt hset hclear hrest, Move.backshift_succ h.lt]⟩

theorem step_of_closeGap {fuel b : Nat} {outcome : Bitmap × List Move} (hhole : hole < occupancy.size)
    (hb : b < occupancy.size) (hbit : occupancy.bit b = true)
    (hclose : closeGap hashAt (fuel + 1) occupancy hole b = .ok outcome) :
    ∃ hash occupancy' hole' outcome', hashAt b = .ok hash ∧ occupancy'.size = occupancy.size ∧
      hole' < occupancy.size ∧ (∀ i, i ≠ b → occupancy.bit i = true → occupancy'.bit i = true) ∧
      closeGap hashAt fuel occupancy' hole' (next occupancy.size b) = .ok outcome' := by
  rw [closeGap, isSet_of_lt hb, hbit] at hclose
  cases hhash : hashAt b with
  | error fault =>
    rw [hhash] at hclose
    cases hclose
  | ok hash =>
    obtain ⟨raised, hset, hsize, hraised⟩ := set_of_lt hhole
    obtain ⟨lowered, hclear, hsize', hlowered⟩ := clear_of_lt (by rwa [hsize] : b < raised.size)
    simp only [hhash, hset, hclear, bind, Except.bind, Bool.not_true, Bool.false_eq_true, if_false] at hclose
    split at hclose
    · cases hrest : closeGap hashAt fuel lowered b (next occupancy.size b) with
      | error fault =>
        rw [hrest] at hclose
        cases hclose
      | ok rest =>
        refine ⟨hash, lowered, b, rest, rfl, hsize'.trans hsize, hb, ?_, hrest⟩
        intro i hi hset
        rw [hlowered, hraised, if_neg hi, hset, ite_self]
    · exact ⟨hash, occupancy, hole, outcome, rfl, rfl, hhole, fun _ _ hset => hset, hclose⟩

/-- A scan that comes to an end has read the hash at each set bit up to the first clear one. -/
theorem hashAt_of_closeGap {run : Nat} : ∀ {fuel hole b : Nat} {occupancy : Bitmap} {outcome : Bitmap × List Move},
    hole < occupancy.size → b < occupancy.size → run ≤ occupancy.size →
    (∀ j < run, occupancy.bit (ahead occupancy.size b j) = true) →
    closeGap hashAt fuel occupancy hole b = .ok outcome →
    ∀ j < run, ∃ hash, hashAt (ahead occupancy.size b j) = .ok hash := by
  induction run with
  | zero => exact fun _ _ _ _ _ j hj => absurd hj (Nat.not_lt_zero j)
  | succ run ih =>
    intro fuel hole b occupancy outcome hhole hb hrun hset hclose
    have hn : 0 < occupancy.size := Nat.zero_lt_of_lt hb
    cases fuel with
    | zero => cases hclose
    | succ fuel =>
      have hbit := hset 0 (Nat.succ_pos run)
      rw [Cyclic.ahead_zero hb] at hbit
      obtain ⟨hash, occupancy', hole', outcome', hhash, hsame, hhole', hkeep, hrest⟩ :=
        step_of_closeGap hhole hb hbit hclose
      intro j hj
      cases j with
      | zero => exact ⟨hash, by rw [Cyclic.ahead_zero hb, hhash]⟩
      | succ j =>
        have hothers : ∀ i < run, occupancy'.bit (ahead occupancy'.size (next occupancy.size b) i) = true := by
          intro i hi
          rw [hsame, Cyclic.ahead_next]
          exact hkeep _ (Cyclic.ahead_ne_self hb (Nat.succ_pos i) (by omega)) (hset (i + 1) (by omega))
        have hbeyond : next occupancy.size b < occupancy'.size := by
          rw [hsame]
          exact Cyclic.next_lt hn b
        have hread := ih (by rwa [hsame]) hbeyond (by omega) hothers hrest j (by omega)
        rwa [hsame, Cyclic.ahead_next] at hread

end Bitmap

/-! ### The slots -/

theorem Slots.occupant_assign_behind {slots : Slots α} {bucket j : Nat} (hbucket : bucket < slots.size)
    (hj : j + 1 < slots.size) (c : Option α) : (slots.assign bucket c).occupant (ahead slots.size bucket (j + 1)) =
      slots.occupant (ahead slots.size bucket (j + 1)) := by
  rw [occupant_assign hbucket, Function.update_of_ne (Cyclic.ahead_ne_self hbucket (Nat.succ_pos j) hj)]

/-- Behind the occupant of `bucket` come `run` more before a free bucket; the first `count` of them are away from
home, and the next, if there is one, is not. -/
structure Slots.Trail (hashOf : α → UInt64) (slots : Slots α) (bucket count run : Nat) : Prop where
  filled : ∀ j ≤ run, ∃ x, slots.occupant (ahead slots.size bucket j) = some x
  free : slots.occupant (ahead slots.size bucket (run + 1)) = none
  room : run + 1 < slots.size
  count_le : count ≤ run
  away : ∀ j < count, ∀ x, slots.occupant (ahead slots.size bucket (j + 1)) = some x →
    home slots.size (hashOf x) ≠ ahead slots.size bucket (j + 1)
  stop : ∀ x, slots.occupant (ahead slots.size bucket (count + 1)) = some x →
    home slots.size (hashOf x) = ahead slots.size bucket (count + 1)

theorem Slots.exists_trail (hashOf : α → UInt64) {slots : Slots α} {bucket : Nat} {x : α}
    (hroom : slots.elements.length < slots.size) (hx : slots.occupant bucket = some x) :
    ∃ count run, slots.Trail hashOf bucket count run := by
  classical
  have hbucket := lt_size_of_occupant hx
  obtain ⟨run, hrun, hfree, hfilled⟩ := slots.exists_gap hroom hbucket
  cases run with
  | zero =>
    rw [Cyclic.ahead_zero hbucket, hx] at hfree
    cases hfree
  | succ run =>
    have hends : ∃ j, ∀ y, slots.occupant (ahead slots.size bucket (j + 1)) = some y →
        home slots.size (hashOf y) = ahead slots.size bucket (j + 1) :=
      ⟨run, fun y hy => by cases hfree.symm.trans hy⟩
    refine ⟨Nat.find hends, run, fun j hj => ?_, hfree, hrun, ?_, fun j hj y hy heq => ?_, Nat.find_spec hends⟩
    · exact Option.ne_none_iff_exists'.mp (hfilled j (Nat.lt_succ_of_le hj))
    · exact Nat.find_min' hends fun y hy => by cases hfree.symm.trans hy
    · apply Nat.find_min hends hj
      intro z hz
      cases hy.symm.trans hz
      exact heq

/-- In Robin Hood order, everybody on the trail behind those who are away from home sits closer to home than the
last of them is. -/
theorem Slots.Trail.displacement_le {slots : Slots α} {bucket count run j : Nat} {x : α}
    (h : slots.Trail hashOf bucket count run) (horder : (slots.profile hashOf).InOrder slots.size)
    (hj : count + j < run) (hx : slots.occupant (ahead slots.size bucket (count + 1 + j)) = some x) :
    displacement slots.size (hashOf x) (ahead slots.size bucket (count + 1 + j)) ≤ j := by
  have hn : 0 < slots.size := Nat.zero_lt_of_lt h.room
  obtain ⟨y, hy⟩ := h.filled (count + 1) (by omega)
  have hhome : slots.profile hashOf (ahead slots.size bucket (count + 1)) = some 0 := by
    rw [profile, hy, Option.map_some, ← h.stop y hy, Cyclic.displacement_home hn]
  apply horder.le_of_home (Cyclic.ahead_lt hn bucket (count + 1)) hhome
  rw [Cyclic.ahead_ahead, profile, hx, Option.map_some]

/-- The occupants of the `count` buckets behind `bucket` have moved one bucket back, and nobody else has moved. -/
structure Slots.MovedBack (before after : Slots α) (bucket count : Nat) : Prop where
  size : after.size = before.size
  moved : ∀ j < count, after.occupant (ahead before.size bucket j) = before.occupant (ahead before.size bucket (j + 1))
  vacated : after.occupant (ahead before.size bucket count) = none
  frame : ∀ i, (∀ j ≤ count, i ≠ ahead before.size bucket j) → after.occupant i = before.occupant i

/-- Each move of a backward shift goes to a bucket that is free by then. -/
theorem Slots.perform_backshift (count : Nat) : ∀ {slots : Slots α} {bucket : Nat}, bucket < slots.size →
    count < slots.size → slots.occupant bucket = none →
    ∃ after, slots.perform none (Move.backshift slots.size bucket count) = .ok after ∧
      slots.MovedBack after bucket count := by
  induction count with
  | zero =>
    intro slots bucket hbucket _ hfree
    refine ⟨slots, perform_nil slots none, rfl, fun j hj => absurd hj (Nat.not_lt_zero j), ?_, fun _ _ => rfl⟩
    rwa [Cyclic.ahead_zero hbucket]
  | succ count ih =>
    intro slots bucket hbucket hcount hfree
    have hn : 0 < slots.size := Nat.zero_lt_of_lt hbucket
    have hnext := Cyclic.next_lt hn bucket
    have hmoved := occupant_moved hnext hbucket (slots.occupant (next slots.size bucket))
    have hsize : ((slots.assign (next slots.size bucket) none).assign bucket
        (slots.occupant (next slots.size bucket))).size = slots.size := by
      rw [size_assign, size_assign]
    have hne : ∀ j ≤ count, ahead slots.size bucket (j + 1) ≠ bucket := fun j hj =>
      Cyclic.ahead_ne_self hbucket (Nat.succ_pos j) (by omega)
    have hbehind : next slots.size bucket ≠ bucket := hne 0 (Nat.zero_le count)
    have hgap := hmoved (next slots.size bucket)
    rw [if_neg hbehind, if_pos rfl] at hgap
    obtain ⟨after, hperform, hafter, hshifted, hvacated, hframe⟩ := ih (by rwa [hsize]) (by omega) hgap
    rw [hsize] at hperform hafter hshifted hvacated hframe
    refine ⟨after, ?_, hafter, ?_, ?_, ?_⟩
    · rw [Move.backshift_succ hbucket, perform_shift hnext hbucket, hperform]
    · intro j hj
      cases j with
      | zero =>
        rw [Cyclic.ahead_zero hbucket, hframe, hmoved, if_pos rfl]
        · rfl
        · intro j hj
          rw [Cyclic.ahead_next]
          exact (hne j hj).symm
      | succ j =>
        rw [← Cyclic.ahead_next, hshifted j (by omega), Cyclic.ahead_next, hmoved, if_neg (hne (j + 1) (by omega)),
          if_neg (Cyclic.ahead_ne_next (by omega) (by omega))]
    · rwa [Cyclic.ahead_next] at hvacated
    · intro i hi
      rw [hframe i, hmoved, if_neg, if_neg]
      · exact hi 1 (by omega)
      · rw [← Cyclic.ahead_zero hbucket]
        exact hi 0 (Nat.zero_le _)
      · intro j hj
        rw [Cyclic.ahead_next]
        exact hi (j + 1) (by omega)

theorem Slots.MovedBack.of_assign {before after : Slots α} {bucket count : Nat} (hbucket : bucket < before.size)
    (hcount : count < before.size) (h : (before.assign bucket none).MovedBack after bucket count) :
    before.MovedBack after bucket count := by
  have hsize : (before.assign bucket none).size = before.size := size_assign ..
  constructor
  · exact h.size.trans hsize
  · intro j hj
    have hmoved := h.moved j hj
    rwa [hsize, occupant_assign_behind hbucket (by omega)] at hmoved
  · have hvacated := h.vacated
    rwa [hsize] at hvacated
  · intro i hi
    rw [h.frame i (by rwa [hsize]), occupant_assign hbucket, Function.update_of_ne]
    rw [← Cyclic.ahead_zero hbucket]
    exact hi 0 (Nat.zero_le count)

/-- Along a trail, all that a backward shift frees is the last bucket. -/
theorem Slots.MovedBack.isSome {before after : Slots α} {bucket count run : Nat}
    (h : before.MovedBack after bucket count) (htrail : before.Trail hashOf bucket count run) (i : Nat) :
    (after.occupant i).isSome =
      ((before.occupant i).isSome && !decide (i = ahead before.size bucket count)) := by
  have hroom := htrail.room
  have hle := htrail.count_le
  by_cases hi : ∃ j ≤ count, i = ahead before.size bucket j
  · obtain ⟨j, hj, rfl⟩ := hi
    obtain ⟨y, hy⟩ := htrail.filled j (by omega)
    obtain hlt | rfl := Nat.lt_or_eq_of_le hj
    · obtain ⟨z, hz⟩ := htrail.filled (j + 1) (by omega)
      rw [h.moved j hlt, hy, hz, decide_eq_false (Cyclic.ahead_ne (by omega) (by omega) hlt.ne)]
      rfl
    · rw [h.vacated, decide_eq_true rfl, Bool.not_true, Bool.and_false]
      rfl
  · rw [h.frame i fun j hj heq => hi ⟨j, hj, heq⟩, decide_eq_false fun heq => hi ⟨count, le_refl count, heq⟩,
      Bool.not_false, Bool.and_true]

/-- No gap is closed without the hashes of all of the run behind it. -/
theorem Slots.Trail.reads {slots : Slots α} {bucket count run : Nat} {lowered : Bitmap} {table : Table}
    {hashAt : Nat → Except Fault UInt64} {outcome : Table × List Move} (h : slots.Trail hashOf bucket count run)
    (hbucket : bucket < slots.size) (hmarks : lowered.Marks (slots.assign bucket none))
    (hprobed : table.layout = .probed lowered) (hclose : table.close bucket hashAt = .ok outcome) :
    ∀ j < run, ∃ hash, hashAt (ahead slots.size bucket (j + 1)) = .ok hash := by
  have hroom := h.room
  have hsize : lowered.size = slots.size := hmarks.size.trans (size_assign ..)
  have hset : ∀ j < run, lowered.bit (ahead slots.size (next slots.size bucket) j) = true := by
    intro j hj
    obtain ⟨x, hx⟩ := h.filled (j + 1) hj
    rw [Cyclic.ahead_next, hmarks.bit, occupant_assign_behind hbucket (by omega), hx]
    rfl
  simp only [Table.close, hprobed] at hclose
  cases hwalk : Bitmap.closeGap hashAt lowered.size lowered bucket (next lowered.size bucket) with
  | error fault =>
    rw [hwalk] at hclose
    cases hclose
  | ok closed =>
    intro j hj
    rw [← Cyclic.ahead_next]
    rw [← hsize] at hset hbucket hroom ⊢
    exact Bitmap.hashAt_of_closeGap hbucket (Cyclic.next_lt (by omega) bucket) (by omega) hset hwalk j hj

/-! ### The whole removal -/

namespace Seating

variable {s : Seating α} {bucket count run : Nat} {x : α}

/-- Taking out the element in a bucket moves the occupants of the next `count` buckets back, those that are away
from home. -/
structure ShiftsBack (hashOf : α → UInt64) (s : Seating α) (bucket : Nat) (unseated : Unseated α)
    (count run : Nat) : Prop extends Unseats s bucket unseated where
  ok : s.unseat hashOf bucket = .ok unseated
  trail : s.slots.Trail hashOf bucket count run
  moves : unseated.moves = Move.backshift s.slots.size bucket count
  /-- Each move goes to a bucket that is free by then. -/
  targets : ∀ j < count, ∃ slots, (s.slots.assign bucket none).perform none (unseated.moves.take j) = .ok slots ∧
    slots.occupant (ahead s.slots.size bucket j) = none
  movedBack : s.slots.MovedBack unseated.seating.slots bucket count
  freed : ∀ i, unseated.seating.table.isOccupied i =
    (s.table.isOccupied i && !decide (i = ahead s.slots.size bucket count))
  /-- The hashes are read up to the end of the run all the same. -/
  reads : ∀ table hashAt outcome, s.table.vacate bucket = .ok table → table.close bucket hashAt = .ok outcome →
    ∀ j < run, ∃ hash, hashAt (ahead s.slots.size bucket (j + 1)) = .ok hash

theorem Orderly.stretch {lowered : Bitmap} (h : s.Orderly hashOf) (hprobed : s.table.isDense = false)
    (htrail : s.slots.Trail hashOf bucket count run) (hbucket : bucket < s.slots.size)
    (hmarks : lowered.Marks (s.slots.assign bucket none)) :
    lowered.Stretch (fun i => hashOf <$> (s.slots.assign bucket none).get i) bucket count (run - count) := by
  have hn : 0 < s.slots.size := Nat.zero_lt_of_lt hbucket
  have hroom := htrail.room
  have hle := htrail.count_le
  have hsize : lowered.size = s.slots.size := hmarks.size.trans (Slots.size_assign ..)
  have hreads : ∀ j < run, ∃ y, s.slots.occupant (ahead s.slots.size bucket (j + 1)) = some y ∧
      lowered.bit (ahead s.slots.size bucket (j + 1)) = true ∧
      hashOf <$> (s.slots.assign bucket none).get (ahead s.slots.size bucket (j + 1)) = .ok (hashOf y) := by
    intro j hj
    obtain ⟨y, hy⟩ := htrail.filled (j + 1) hj
    have hy' := (Slots.occupant_assign_behind hbucket (by omega) none).trans hy
    exact ⟨y, hy, by rw [hmarks.bit, hy']; rfl, by rw [Slots.get_of_occupant hy']; rfl⟩
  constructor
  · rwa [hsize]
  · intro j hj
    obtain ⟨y, hy, hbit, hhash⟩ := hreads j (by omega)
    rw [hsize]
    refine ⟨hbit, hashOf y, hhash, fun hzero => htrail.away j hj y hy ?_⟩
    rw [← Cyclic.ahead_displacement (Cyclic.ahead_lt hn bucket (j + 1)) (hashOf y), hzero,
      Cyclic.ahead_zero (Cyclic.home_lt hn _)]
  · intro j hj
    obtain ⟨y, hy, hbit, hhash⟩ := hreads (count + j) (by omega)
    rw [Nat.add_right_comm] at hy hbit hhash
    rw [hsize]
    exact ⟨hbit, hashOf y, hhash, htrail.displacement_le (h.inOrder hprobed) (by omega) hy⟩
  · rw [hsize, show count + 1 + (run - count) = run + 1 by omega, hmarks.bit,
      Slots.occupant_assign_behind hbucket hroom, htrail.free]
    rfl
  · rw [hsize]
    omega

/-- Removing from a probed seating in order shifts back. -/
theorem Orderly.shiftsBack (h : s.Orderly hashOf) (hprobed : s.table.isDense = false)
    (hx : s.slots.occupant bucket = some x) : ∃ unseated count run, ShiftsBack hashOf s bucket unseated count run := by
  have hb := Slots.lt_size_of_occupant hx
  obtain ⟨count, run, htrail⟩ := Slots.exists_trail hashOf (h.length_lt hprobed) hx
  have hroom := htrail.room
  have hle := htrail.count_le
  obtain ⟨unseated, hok, hunseats⟩ := h.toInStep.unseat hashOf hx
  have hvacant : (s.slots.assign bucket none).occupant bucket = none := by
    rw [Slots.occupant_assign hb, Function.update_self]
  have hsize : (s.slots.assign bucket none).size = s.slots.size := Slots.size_assign ..
  cases hlayout : s.table.layout with
  | dense => cases (isDense_of_layout hlayout).symm.trans hprobed
  | probed occupancy =>
    obtain ⟨lowered, hvacate, hmarks⟩ := h.toInStep.vacate_probed hlayout hx
    have hlowered : lowered.size = s.slots.size := hmarks.size.trans hsize
    have hstretch := h.stretch hprobed htrail hb hmarks
    have hfuel : count + (run - count) < lowered.size := by omega
    obtain ⟨closed, hclose⟩ := Bitmap.closeGap_backshift count hfuel hstretch
    obtain ⟨after, hperform, hmovedBack⟩ := Slots.perform_backshift count (by rwa [hsize]) (by omega) hvacant
    rw [hlowered] at hclose
    rw [hsize] at hperform
    -- The moves of the scan lead to these slots, so they are those of the removal.
    have hread := hok
    rw [Seating.unseat, hvacate] at hread
    simp only [Slots.take_of_occupant hx, Table.close, hlowered, hclose, hperform, bind, Except.bind, pure,
      Except.pure, Except.ok.injEq] at hread
    subst hread
    refine ⟨_, count, run, hunseats, hok, htrail, rfl, fun j hj => ?_, ?_, fun i => ?_, ?_⟩
    · obtain ⟨slots, hperform, hmovedBack⟩ := Slots.perform_backshift j (by rwa [hsize]) (by omega) hvacant
      rw [hsize] at hperform
      exact ⟨slots, by rw [Move.take_backshift (Nat.le_of_lt hj), hperform], hsize ▸ hmovedBack.vacated⟩
    · exact Slots.MovedBack.of_assign hb (by omega) hmovedBack
    · rw [hunseats.inStep.occupied, h.occupied]
      exact (Slots.MovedBack.of_assign hb (by omega) hmovedBack).isSome htrail i
    · intro table hashAt outcome hvacate' hclose'
      cases hvacate.symm.trans hvacate'
      exact htrail.reads hb hmarks rfl hclose'

end Seating

end RobinHood
