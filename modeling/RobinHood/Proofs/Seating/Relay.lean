import Mathlib.Data.List.Nodup
import RobinHood.Proofs.Seating.Insertion

/-!
# How a new element is seated

The new element takes the place of a resident, that one the place of another farther on, and so forth, until
one settles in the first free bucket: a relay along buckets that are all different. So nobody moves twice, and
whoever moves is read off the slots as they were before. Which buckets the relay goes through is found out by
asking for the hashes of residents, and for nothing else.
-/

namespace RobinHood

open Cyclic (ahead home next)

variable {α : Type} {hashOf : α → UInt64}

/-! ### Along the circle -/

namespace Bitmap

variable {occupancy : Bitmap} {hashAt hashAt' : Nat → Except Fault UInt64} {start k n : Nat} {steps : List Nat}

/-- From `start` on the first clear bit is `k` steps ahead; `steps` lead to bits before it, in the order of
the circle. -/
structure Course (occupancy : Bitmap) (start : Nat) (steps : List Nat) (k : Nat) : Prop where
  run : ∀ j < k, occupancy.bit (ahead occupancy.size start j) = true
  gap : occupancy.bit (ahead occupancy.size start k) = false
  ordered : steps.Pairwise (· < ·)
  before : ∀ j ∈ steps, j < k

theorem course_here (hstart : start < occupancy.size) (hbit : occupancy.bit start = false) :
    occupancy.Course start [] 0 where
  run _ hj := absurd hj (Nat.not_lt_zero _)
  gap := by rwa [Cyclic.ahead_zero hstart]
  ordered := List.Pairwise.nil
  before _ hj := absurd hj List.not_mem_nil

theorem Course.pass (h : occupancy.Course (next occupancy.size start) steps k) (hstart : start < occupancy.size)
    (hbit : occupancy.bit start = true) : occupancy.Course start (steps.map Nat.succ) (k + 1) where
  run
    | 0, _ => by rwa [Cyclic.ahead_zero hstart]
    | j + 1, hj => by
      rw [← Cyclic.ahead_next]
      exact h.run j (Nat.lt_of_succ_lt_succ hj)
  gap := by
    rw [← Cyclic.ahead_next]
    exact h.gap
  ordered := h.ordered.map _ fun _ _ => Nat.succ_lt_succ
  before := by
    simp only [List.mem_map, forall_exists_index, and_imp, forall_apply_eq_imp_iff₂]
    exact fun j hj => Nat.succ_lt_succ (h.before j hj)

theorem Course.stop (h : occupancy.Course (next occupancy.size start) steps k) (hstart : start < occupancy.size)
    (hbit : occupancy.bit start = true) : occupancy.Course start (0 :: steps.map Nat.succ) (k + 1) where
  run := (h.pass hstart hbit).run
  gap := (h.pass hstart hbit).gap
  ordered := by
    refine List.pairwise_cons.mpr ⟨?_, (h.pass hstart hbit).ordered⟩
    simp only [List.mem_map, forall_exists_index, and_imp, forall_apply_eq_imp_iff₂]
    exact fun j _ => Nat.succ_pos j
  before := List.forall_mem_cons.mpr ⟨Nat.succ_pos k, (h.pass hstart hbit).before⟩

theorem map_ahead_succ (n start : Nat) (steps : List Nat) :
    (steps.map Nat.succ).map (ahead n start) = steps.map (ahead n (next n start)) := by
  rw [List.map_map]
  exact List.map_congr_left fun j _ => (Cyclic.ahead_next start j).symm

/-- Less than a turn away, the steps lead to different buckets. -/
theorem Course.nodup (h : occupancy.Course start steps k) (hk : k < occupancy.size) :
    (steps.map (ahead occupancy.size start)).Nodup := by
  refine List.Nodup.map_on (fun i hi j hj heq => ?_) h.ordered.nodup
  exact Cyclic.ahead_inj ((h.before i hi).trans hk) ((h.before j hj).trans hk) heq

/-- The exchanges of an insertion, and the bucket where it ends, lie on a course from the bucket where it
begins. -/
theorem course_of_displace {fuel distance free : Nat} {moves : List Move} (hstart : start < occupancy.size)
    (h : occupancy.displace hashAt fuel start distance = .ok (moves, free)) :
    ∃ steps k, k < fuel ∧ occupancy.Course start steps k ∧ free = ahead occupancy.size start k ∧
      moves = (steps.map (ahead occupancy.size start)).map .swap ++ [.settle free] := by
  induction fuel generalizing start distance moves free with
  | zero => cases h
  | succ fuel ih =>
    rw [displace, isSet_of_lt hstart] at h
    cases hbit : occupancy.bit start with
    | false =>
      rw [hbit] at h
      cases h
      exact ⟨[], 0, Nat.succ_pos fuel, course_here hstart hbit, (Cyclic.ahead_zero hstart).symm, rfl⟩
    | true =>
      have hnext := Cyclic.next_lt (by omega : 0 < occupancy.size) start
      rw [hbit] at h
      cases hhash : hashAt start with
      | error fault =>
        rw [hhash] at h
        cases h
      | ok hash =>
        rw [hhash] at h
        simp only [bind, Except.bind, Bool.not_true, Bool.false_eq_true, if_false] at h
        split at h
        · cases hrest : occupancy.displace hashAt fuel (next occupancy.size start)
              (Cyclic.displacement occupancy.size hash start + 1) with
          | error fault =>
            rw [hrest] at h
            cases h
          | ok rest =>
            rw [hrest] at h
            cases h
            obtain ⟨steps, k, hk, hcourse, hfree, hmoves⟩ := ih hnext hrest
            refine ⟨0 :: steps.map Nat.succ, k + 1, by omega, hcourse.stop hstart hbit, ?_, ?_⟩
            · rw [hfree, Cyclic.ahead_next]
            · rw [hmoves, List.map_cons, List.map_cons, map_ahead_succ, Cyclic.ahead_zero hstart]
              rfl
        · obtain ⟨steps, k, hk, hcourse, hfree, hmoves⟩ := ih hnext h
          refine ⟨steps.map Nat.succ, k + 1, by omega, hcourse.pass hstart hbit, ?_, ?_⟩
          · rw [hfree, Cyclic.ahead_next]
          · rw [hmoves, map_ahead_succ]

/-- Only the hashes at set bits matter. -/
theorem displace_congr (h : ∀ b < occupancy.size, occupancy.bit b = true → hashAt b = hashAt' b) :
    ∀ {fuel start : Nat} (distance : Nat), start < occupancy.size →
      occupancy.displace hashAt fuel start distance = occupancy.displace hashAt' fuel start distance := by
  intro fuel
  induction fuel with
  | zero => exact fun _ _ => rfl
  | succ fuel ih =>
    intro start distance hstart
    have hnext := Cyclic.next_lt (by omega : 0 < occupancy.size) start
    rw [displace, displace, isSet_of_lt hstart]
    cases hbit : occupancy.bit start with
    | false => rfl
    | true =>
      rw [h start hstart hbit]
      cases hashAt' start with
      | error fault => rfl
      | ok hash =>
        simp only [bind, Except.bind, ih _ hnext]

end Bitmap

/-! ### Through the slots -/

/-- Exchanging whoever is in hand at one bucket after the other, and settling the last one, passes the occupants
on: each sits where the next one sat. -/
theorem Slots.perform_relay {swapped : List Nat} {free : Nat} {slots after : Slots α} {x : α}
    (hresidents : ∀ b ∈ swapped, slots.occupant b ≠ none) (hfree : free < slots.size) (hnodup : (swapped ++ [free]).Nodup)
    (h : slots.perform (some x) (swapped.map .swap ++ [.settle free]) = .ok after) :
    (swapped ++ [free]).map after.occupant = some x :: swapped.map slots.occupant ∧
      ∀ i ∉ swapped ++ [free], after.occupant i = slots.occupant i := by
  induction swapped generalizing slots x with
  | nil =>
    rw [List.map_nil, List.nil_append, perform_settle hfree, perform_nil] at h
    obtain rfl := Except.ok.inj h
    simp only [List.nil_append, List.map_cons, List.map_nil, occupant_assign hfree, Function.update_self, true_and]
    exact fun i hi => Function.update_of_ne (fun heq => hi (List.mem_singleton.mpr heq)) ..
  | cons b swapped ih =>
    obtain ⟨y, hy⟩ := Option.ne_none_iff_exists'.mp (hresidents b List.mem_cons_self)
    obtain ⟨hfresh, hnodup⟩ := List.nodup_cons.mp hnodup
    have hothers : ∀ i, i ≠ b → (slots.assign b (some x)).occupant i = slots.occupant i := fun i hi => by
      rw [occupant_assign (lt_size_of_occupant hy), Function.update_of_ne hi]
    have hrest : ∀ i ∈ swapped, i ≠ b := fun i hi heq => hfresh (heq ▸ List.mem_append_left _ hi)
    rw [List.map_cons, List.cons_append, perform_swap hy] at h
    obtain ⟨hhanded, hframe⟩ := ih (fun i hi => by rw [hothers i (hrest i hi)]; exact hresidents i (List.mem_cons_of_mem b hi))
      (by rwa [size_assign]) hnodup h
    rw [List.map_congr_left fun i hi => hothers i (hrest i hi)] at hhanded
    constructor
    · rw [List.cons_append, List.map_cons, List.map_cons, hhanded, hframe b hfresh,
        occupant_assign (lt_size_of_occupant hy), Function.update_self, hy]
    · intro i hi
      obtain ⟨hib, hi⟩ := not_or.mp (fun h => hi (List.mem_cons.mpr h))
      rw [hframe i hi, hothers i hib]

namespace Seating

variable {s : Seating α} {x : α} {hash : UInt64} {seated : Seated α} {swapped : List Nat} {free : Nat}

/-- The way of a new element to the bucket that its arrival fills. A dense table fills the first one that it
does not count; in a probed one the way leads from the home of the element to the first free bucket. -/
inductive Way (table : Table) (hash : UInt64) : (swapped : List Nat) → (free : Nat) → Prop
  | dense (hdense : table.layout = .dense) : Way table hash [] table.count
  | probed {occupancy : Bitmap} {steps : List Nat} {k : Nat} (hprobed : table.layout = .probed occupancy)
      (hk : k < occupancy.size) (hcourse : occupancy.Course (home occupancy.size hash) steps k) :
      Way table hash (steps.map (ahead occupancy.size (home occupancy.size hash)))
        (ahead occupancy.size (home occupancy.size hash) k)

/-- A new element arrives by a relay through the buckets `swapped`, which ends in the bucket `free`. -/
structure Relay (s : Seating α) (x : α) (hash : UInt64) (seated : Seated α) (swapped : List Nat) (free : Nat) :
    Prop extends Seats s x seated where
  way : Way s.table hash swapped free
  /-- Nothing is settled before the end. -/
  moves : seated.moves = swapped.map .swap ++ [.settle free]
  residents : ∀ b ∈ swapped, s.table.isOccupied b = true
  vacancy : s.table.isOccupied free = false
  nodup : swapped.Nodup
  /-- The new element sits where the first resident sat, and each resident where the next one sat. -/
  handed : (swapped ++ [free]).map seated.seating.slots.occupant = some x :: swapped.map s.slots.occupant
  first : (swapped ++ [free]).head? = some seated.landed
  frame : ∀ i ∉ swapped ++ [free], seated.seating.slots.occupant i = s.slots.occupant i
  filled : ∀ i, seated.seating.table.isOccupied i = (decide (i = free) || s.table.isOccupied i)
  count : seated.seating.table.count = s.table.count + 1

/-- The moves of a seating along a way are performed as a relay. -/
private theorem Seats.relay (hseats : Seats s x seated) (h : s.InStep) (hway : Way s.table hash swapped free)
    (hmoves : seated.moves = swapped.map .swap ++ [.settle free])
    (hresidents : ∀ b ∈ swapped, s.table.isOccupied b = true) (hvacancy : s.table.isOccupied free = false)
    (hfree : free < s.slots.size) (hnodup : swapped.Nodup) (hfirst : (swapped ++ [free]).head? = some seated.landed) :
    s.Relay x hash seated swapped free := by
  have hfresh : (swapped ++ [free]).Nodup := by
    refine List.nodup_append.mpr ⟨hnodup, List.nodup_singleton free, ?_⟩
    rintro b hb _ (_ | ⟨_, ⟨⟩⟩) rfl
    cases hvacancy.symm.trans (hresidents b hb)
  have hperformed := hseats.performed
  rw [hmoves] at hperformed
  obtain ⟨hhanded, hframe⟩ := Slots.perform_relay (fun b hb => by
    rw [← Option.isSome_iff_ne_none, ← h.occupied]; exact hresidents b hb) hfree hfresh hperformed
  refine ⟨hseats, hway, hmoves, hresidents, hvacancy, hnodup, hhanded, hfirst, hframe, fun i => ?_, ?_⟩
  · rw [hseats.inStep.occupied, h.occupied]
    by_cases hi : i ∈ swapped ++ [free]
    · -- Whoever sits on the way afterwards is the new element or was there before.
      have hafter : (seated.seating.slots.occupant i).isSome = true := by
        have hmem : seated.seating.slots.occupant i ∈ some x :: swapped.map s.slots.occupant := by
          rw [← hhanded]
          exact List.mem_map_of_mem hi
        obtain heq | hmem := List.mem_cons.mp hmem
        · rw [heq]
          rfl
        · obtain ⟨b, hb, heq⟩ := List.mem_map.mp hmem
          rw [← heq, ← h.occupied]
          exact hresidents b hb
      obtain hi | hi := List.mem_append.mp hi
      · rw [hafter, ← h.occupied, hresidents i hi, Bool.or_true]
      · rw [hafter, decide_eq_true (List.mem_singleton.mp hi), Bool.true_or]
    · rw [hframe i hi, decide_eq_false (fun heq => hi (by simp [heq])), Bool.false_or]
  · rw [hseats.inStep.count, h.count, hseats.elements.length_eq, List.length_cons]

theorem place_of_seat (h : s.seat hashOf x hash = .ok seated) :
    s.table.place hash (fun b => hashOf <$> s.slots.get b) =
      .ok ⟨seated.seating.table, seated.moves, seated.landed⟩ := by
  rw [seat] at h
  cases hplace : s.table.place hash fun b => hashOf <$> s.slots.get b with
  | error fault =>
    rw [hplace] at h
    cases h
  | ok placed =>
    rw [hplace] at h
    cases hperform : s.slots.perform (some x) placed.moves with
    | error fault =>
      simp only [hperform, bind, Except.bind, reduceCtorEq] at h
    | ok slots =>
      simp only [hperform, bind, Except.bind, pure, Except.pure, Except.ok.injEq] at h
      rw [← h]

theorem InStep.occupancy_pos {occupancy : Bitmap} (h : s.InStep) (hprobed : s.table.layout = .probed occupancy) :
    0 < occupancy.size := by
  rw [(h.marks hprobed).size]
  exact Nat.zero_lt_of_lt (h.one_lt_size (not_isDense_of_layout hprobed))

/-- As long as there is room, a new element is seated by a relay, whatever the hashes are. -/
theorem InStep.relay (h : s.InStep) (hroom : s.table.count < s.table.capacity) (hashOf : α → UInt64) (x : α)
    (hash : UInt64) :
    ∃ seated swapped free, s.seat hashOf x hash = .ok seated ∧ s.Relay x hash seated swapped free := by
  obtain ⟨seated, hok, hseats⟩ := h.seat hroom hashOf x hash
  have hplace := place_of_seat hok
  cases hlayout : s.table.layout with
  | dense =>
    rw [Table.place, hlayout] at hplace
    obtain ⟨-, hmoves, hlanded⟩ := Placement.mk.inj (Except.ok.inj hplace)
    refine ⟨seated, [], s.table.count, hok, hseats.relay h (.dense hlayout) hmoves.symm (by simp) ?_ ?_ List.nodup_nil ?_⟩
    · simp only [Table.isOccupied, hlayout, Nat.lt_irrefl, decide_false]
    · rwa [h.size_slots, Table.bucketCount, hlayout]
    · rw [← hlanded]
      rfl
  | probed occupancy =>
    have hn := h.occupancy_pos hlayout
    have hhome := Cyclic.home_lt hn hash
    rw [Table.place, hlayout] at hplace
    cases hwalk : occupancy.displace (fun b => hashOf <$> s.slots.get b) occupancy.size (home occupancy.size hash) 0 with
    | error fault =>
      simp only [hwalk, bind, Except.bind, reduceCtorEq] at hplace
    | ok walk =>
      obtain ⟨moves, free⟩ := walk
      obtain ⟨steps, k, hk, hcourse, rfl, hmoves⟩ := Bitmap.course_of_displace hhome hwalk
      have hfree := Cyclic.ahead_lt hn (home occupancy.size hash) k
      obtain ⟨raised, hset, -⟩ := Bitmap.set_of_lt hfree
      simp only [hwalk, hset, bind, Except.bind, pure, Except.pure, Except.ok.injEq, Placement.mk.injEq] at hplace
      obtain ⟨-, hmoved, hlanded⟩ := hplace
      refine ⟨seated, _, _, hok, hseats.relay h (.probed hlayout hk hcourse) (hmoved ▸ hmoves) ?_ ?_ ?_
        (hcourse.nodup hk) ?_⟩
      · intro b hb
        obtain ⟨j, hj, rfl⟩ := List.mem_map.mp hb
        simp only [Table.isOccupied, hlayout, Cyclic.ahead_lt hn, hcourse.run j (hcourse.before j hj), decide_true,
          Bool.and_self]
      · simp only [Table.isOccupied, hlayout, hcourse.gap, Bool.and_false]
      · rwa [← (h.marks hlayout).size]
      · rw [← hlanded, hmoves]
        cases steps <;> rfl

/-- Only occupants are asked for their hashes: what the container would answer about a free bucket, or whether
it would answer at all, makes no difference. -/
theorem InStep.place_eq (h : s.InStep) (hok : s.seat hashOf x hash = .ok seated)
    {hashAt : Nat → Except Fault UInt64} (hhashAt : ∀ b y, s.slots.occupant b = some y → hashAt b = .ok (hashOf y)) :
    s.table.place hash hashAt = .ok ⟨seated.seating.table, seated.moves, seated.landed⟩ := by
  rw [← place_of_seat hok]
  cases hlayout : s.table.layout with
  | dense => simp only [Table.place, hlayout]
  | probed occupancy =>
    simp only [Table.place, hlayout]
    rw [Bitmap.displace_congr (fun b _ hbit => ?_) 0 (Cyclic.home_lt (h.occupancy_pos hlayout) hash)]
    rw [(h.marks hlayout).bit, Option.isSome_iff_exists] at hbit
    obtain ⟨y, hy⟩ := hbit
    rw [hhashAt b y hy, Slots.get_of_occupant hy]
    rfl

/-- Seating a new element leads to `seated`, by a relay for which only occupants are asked for their hashes. -/
structure Admits (hashOf : α → UInt64) (s : Seating α) (x : α) (hash : UInt64) (seated : Seated α) : Prop where
  seats : s.seat hashOf x hash = .ok seated
  relay : ∃ swapped free, s.Relay x hash seated swapped free
  asks : ∀ hashAt : Nat → Except Fault UInt64, (∀ b y, s.slots.occupant b = some y → hashAt b = .ok (hashOf y)) →
    s.table.place hash hashAt = .ok ⟨seated.seating.table, seated.moves, seated.landed⟩

theorem InStep.admits (h : s.InStep) (hroom : s.table.count < s.table.capacity) (hashOf : α → UInt64) (x : α)
    (hash : UInt64) : ∃ seated, s.Admits hashOf x hash seated := by
  obtain ⟨seated, swapped, free, hok, hrelay⟩ := h.relay hroom hashOf x hash
  exact ⟨seated, hok, ⟨swapped, free, hrelay⟩, fun _ hhashAt => h.place_eq hok hhashAt⟩

end Seating

end RobinHood
