import RobinHood.Proofs.Seating.Contents

/-!
# Searching as scanning

A search visits a few buckets. In a seating whose elements have different keys it answers all the same what a
scan of all occupied buckets would, provided that the hash it is given is the one of an element under the key,
should there be one. The seatings a table goes through are of this kind as long as an element is only seated
when none with its key is.
-/

namespace RobinHood.Seating

open RobinHood.Ledger

variable {α K : Type} {s : Seating α} {isMatch : α → Bool} {b : Nat} {x : α}

/-- The first occupied bucket with a match, found by looking into all of them. -/
def scan (s : Seating α) (isMatch : α → Bool) : Option Nat :=
  (List.range s.table.bucketCount).find? fun b => s.table.isOccupied b && (s.slots.occupant b).any isMatch

theorem InStep.mem_range (h : s.InStep) (hx : s.slots.occupant b = some x) : b ∈ List.range s.table.bucketCount := by
  rw [List.mem_range, ← h.size_slots]
  exact Slots.lt_size_of_occupant hx

theorem InStep.isOccupied (h : s.InStep) (hx : s.slots.occupant b = some x) : s.table.isOccupied b = true := by
  rw [h.occupied, hx]
  rfl

theorem InStep.isDense_of_like {t : Seating α} (h : s.InStep) (ht : t.InStep) (hlike : t.table.Like s.table) :
    t.table.isDense = s.table.isDense := by
  rw [Bool.eq_iff_iff, ht.shaped.dense_iff, h.shaped.dense_iff, hlike.capacity]

/-- Where at most one bucket has a match, what a search has to answer is what a scan answers. -/
theorem InStep.scan_eq {found : Option Nat} (h : s.InStep) (hfinds : s.Finds isMatch found)
    (honly : ∀ b c x y, s.slots.occupant b = some x → s.slots.occupant c = some y → isMatch x = true →
      isMatch y = true → b = c) : s.scan isMatch = found := by
  cases hscan : s.scan isMatch with
  | some c =>
    have hc := List.find?_some hscan
    rw [Bool.and_eq_true, Option.any_eq_true] at hc
    obtain ⟨-, y, hy, hmatch⟩ := hc
    cases found with
    | some b =>
      obtain ⟨x, hx, hmatch'⟩ := hfinds
      rw [honly b c x y hx hy hmatch' hmatch]
    | none => cases (hfinds y (Slots.mem_elements.mpr ⟨c, hy⟩)).symm.trans hmatch
  | none =>
    cases found with
    | some b =>
      obtain ⟨x, hx, hmatch⟩ := hfinds
      have hmiss := List.find?_eq_none.mp hscan b (h.mem_range hx)
      rw [h.isOccupied hx, hx, Option.any_some, hmatch] at hmiss
      exact absurd rfl hmiss
    | none => rfl

variable [BEq K] {keyOf : α → K} {hashOf : α → UInt64}

/-- The hash is the one of an element under the key, if there is one. -/
def Agrees (keyOf : α → K) (hashOf : α → UInt64) (s : Seating α) (k : K) (hash : UInt64) : Prop :=
  ∀ x ∈ s.slots.elements, (keyOf x == k) = true → hashOf x = hash

/-- Searches for keys answer as scans do, and what is seated after a miss is found. -/
structure Searchable (keyOf : α → K) (hashOf : α → UInt64) (s : Seating α) : Prop where
  find : ∀ k hash, s.Agrees keyOf hashOf k hash →
    s.find hash (fun x => keyOf x == k) =
      .ok ⟨s.scan fun x => keyOf x == k, if s.table.isDense then 0 else hash⟩
  scan_eq_some_iff : ∀ k b, (s.scan fun x => keyOf x == k) = some b ↔
    s.table.isOccupied b = true ∧ ∃ x, s.slots.occupant b = some x ∧ (keyOf x == k) = true
  meets : ∀ x k probe, (keyOf x == k) = true → s.Agrees keyOf hashOf k (hashOf x) → s.table.isFull = false →
    s.find (hashOf x) (fun y => keyOf y == k) = .ok probe → probe.bucket = none →
    ∃ seated, s.seat hashOf x probe.hash = .ok seated ∧ Seats s x seated ∧
      seated.seating.find (hashOf x) (fun y => keyOf y == k) = .ok ⟨some seated.landed, probe.hash⟩

variable [EquivBEq K]

/-- Elements under one key sit in one bucket, if there is one element a key. -/
theorem occupant_unique (hdistinct : Distinct keyOf s.slots.elements) {k : K} {c : Nat} {y : α}
    (hx : s.slots.occupant b = some x) (hy : s.slots.occupant c = some y) (hxk : (keyOf x == k) = true)
    (hyk : (keyOf y == k) = true) : b = c := by
  by_contra hbc
  have hrest : y ∈ (s.slots.assign b none).elements := by
    refine Slots.mem_elements.mpr ⟨c, ?_⟩
    rw [Slots.occupant_assign (Slots.lt_size_of_occupant hx), Function.update_of_ne (Ne.symm hbc), hy]
  have happart := List.rel_of_pairwise_cons (hdistinct.perm (Slots.elements_perm_cons hx)) hrest
  rw [BEq.trans hxk (BEq.symm hyk)] at happart
  cases happart

theorem Orderly.find_eq_scan (h : s.Orderly hashOf) (hdistinct : Distinct keyOf s.slots.elements) {k : K}
    {hash : UInt64} (hagrees : s.Agrees keyOf hashOf k hash) :
    s.find hash (fun x => keyOf x == k) =
      .ok ⟨s.scan fun x => keyOf x == k, if s.table.isDense then 0 else hash⟩ := by
  obtain ⟨found, hfind, hfinds⟩ := h.find (fun x => keyOf x == k) hagrees
  rw [hfind, h.scan_eq hfinds fun _ _ _ _ hx hy => occupant_unique hdistinct hx hy]

theorem Orderly.scan_eq_some_iff (h : s.Orderly hashOf) (hdistinct : Distinct keyOf s.slots.elements) (k : K)
    (b : Nat) : (s.scan fun x => keyOf x == k) = some b ↔
      s.table.isOccupied b = true ∧ ∃ x, s.slots.occupant b = some x ∧ (keyOf x == k) = true := by
  constructor
  · intro hscan
    have hb := List.find?_some hscan
    rwa [Bool.and_eq_true, Option.any_eq_true] at hb
  · rintro ⟨-, hfinds⟩
    have hb : s.Finds (fun x => keyOf x == k) (some b) := hfinds
    exact h.scan_eq hb fun _ _ _ _ hx hy => occupant_unique hdistinct hx hy

/-- A new key keeps the keys different, and is found from then on. -/
theorem Orderly.seat_after_miss (h : s.Orderly hashOf) (hdistinct : Distinct keyOf s.slots.elements) {k : K}
    {probe : Probe} (hk : (keyOf x == k) = true) (hagrees : s.Agrees keyOf hashOf k (hashOf x))
    (hfull : s.table.isFull = false) (hfind : s.find (hashOf x) (fun y => keyOf y == k) = .ok probe)
    (hmiss : probe.bucket = none) :
    ∃ seated, s.seat hashOf x probe.hash = .ok seated ∧ Seats s x seated ∧
      seated.seating.find (hashOf x) (fun y => keyOf y == k) = .ok ⟨some seated.landed, probe.hash⟩ := by
  obtain ⟨found, hfind', hfinds⟩ := h.find (fun y => keyOf y == k) hagrees
  obtain rfl := Except.ok.inj (hfind.symm.trans hfind')
  subst hmiss
  have hroom := Nat.lt_of_le_of_ne h.count_le (beq_eq_false_iff_ne.mp hfull)
  have hhash : s.table.isDense = false → (if s.table.isDense then 0 else hashOf x) = hashOf x := fun hprobed => by
    rw [hprobed]
    rfl
  obtain ⟨seated, hok, hseats, horderly⟩ := h.seat hroom x hhash
  have habsent : ∀ y ∈ s.slots.elements, (keyOf y == keyOf x) = false := fun y hy => by
    rw [BEq.congr_right hk]
    exact hfinds y hy
  have hafter : Distinct keyOf seated.seating.slots.elements :=
    (hdistinct.cons (lookup_eq_none_iff.mpr habsent)).perm hseats.elements.symm
  have hagree : seated.seating.Agrees keyOf hashOf k (hashOf x) := by
    intro y hy hyk
    obtain rfl | hy := List.mem_cons.mp (hseats.elements.mem_iff.mp hy)
    · rfl
    · exact hagrees y hy hyk
  refine ⟨seated, hok, hseats, ?_⟩
  have hscan := (horderly.scan_eq_some_iff hafter k seated.landed).mpr
    ⟨hseats.inStep.isOccupied hseats.landed, x, hseats.landed, hk⟩
  rw [horderly.find_eq_scan hafter hagree, hscan, h.isDense_of_like hseats.inStep hseats.like]

theorem Orderly.searchable (h : s.Orderly hashOf) (hdistinct : Distinct keyOf s.slots.elements) :
    s.Searchable keyOf hashOf where
  find _ _ hagrees := h.find_eq_scan hdistinct hagrees
  scan_eq_some_iff := h.scan_eq_some_iff hdistinct
  meets _ _ _ hk hagrees hfull hfind hmiss := h.seat_after_miss hdistinct hk hagrees hfull hfind hmiss

/-- The seatings that a table of the given capacity goes through when elements with keys are kept in it: one that
is seated has a key that no occupant has, and one in the place of another has its key and its hash. -/
inductive Populated (keyOf : α → K) (hashOf : α → UInt64) (capacity : Nat) (seed : UInt64) : Seating α → Prop
  | start {s : Seating α} (hvacant : vacant capacity seed = .ok s) : Populated keyOf hashOf capacity seed s
  | seat {s : Seating α} {x : α} {hash : UInt64} {seated : Seated α} (h : Populated keyOf hashOf capacity seed s)
      (hroom : s.table.isFull = false) (habsent : ∀ y ∈ s.slots.elements, (keyOf y == keyOf x) = false)
      (hhash : s.table.isDense = false → hash = hashOf x) (hseat : s.seat hashOf x hash = .ok seated) :
      Populated keyOf hashOf capacity seed seated.seating
  | replace {s : Seating α} {b : Nat} {x y : α} (h : Populated keyOf hashOf capacity seed s)
      (hx : s.slots.occupant b = some x) (hkey : (keyOf y == keyOf x) = true) (hhash : hashOf y = hashOf x) :
      Populated keyOf hashOf capacity seed ⟨s.table, s.slots.assign b (some y)⟩
  | unseat {s : Seating α} {b : Nat} {unseated : Unseated α} (h : Populated keyOf hashOf capacity seed s)
      (hoccupied : s.table.isOccupied b = true) (hunseat : s.unseat hashOf b = .ok unseated) :
      Populated keyOf hashOf capacity seed unseated.seating
  | clear {s : Seating α} (h : Populated keyOf hashOf capacity seed s) :
      Populated keyOf hashOf capacity seed s.clear

theorem Populated.orderly {capacity : Nat} {seed : UInt64} (h : Populated keyOf hashOf capacity seed s) :
    s.Orderly hashOf ∧ Distinct keyOf s.slots.elements := by
  induction h with
  | start hvacant =>
    obtain ⟨horderly, hnil, -⟩ := vacant_eq_ok hvacant hashOf
    exact ⟨horderly, by rw [hnil]; exact distinct_nil⟩
  | seat _ hroom habsent hhash hseat ih =>
    obtain ⟨horderly, hdistinct⟩ := ih
    have hlt := Nat.lt_of_le_of_ne horderly.count_le (beq_eq_false_iff_ne.mp hroom)
    obtain ⟨seated, hok, hseats, hafter⟩ := horderly.seat hlt _ hhash
    cases hseat.symm.trans hok
    exact ⟨hafter, (hdistinct.cons (lookup_eq_none_iff.mpr habsent)).perm hseats.elements.symm⟩
  | @replace s b x y _ hx hkey hhash ih =>
    obtain ⟨horderly, hdistinct⟩ := ih
    have hbefore := hdistinct.perm (Slots.elements_perm_cons hx)
    have hy : (s.slots.assign b (some y)).occupant b = some y := by
      rw [Slots.occupant_assign (Slots.lt_size_of_occupant hx), Function.update_self]
    have hperm := Slots.elements_perm_cons hy
    rw [Slots.assign_assign] at hperm
    refine ⟨horderly.replace hx hhash, Distinct.perm (List.pairwise_cons.mpr ⟨fun z hz => ?_, hbefore.of_cons⟩) hperm.symm⟩
    rw [BEq.congr_left hkey]
    exact List.rel_of_pairwise_cons hbefore hz
  | unseat _ hoccupied hunseat ih =>
    obtain ⟨horderly, hdistinct⟩ := ih
    rw [horderly.occupied, Option.isSome_iff_exists] at hoccupied
    obtain ⟨x, hx⟩ := hoccupied
    obtain ⟨unseated, hok, hunseats, hafter⟩ := horderly.unseat hx
    cases hunseat.symm.trans hok
    exact ⟨hafter, (hdistinct.perm hunseats.elements).of_cons⟩
  | clear _ ih => exact ⟨ih.1.clear hashOf, by rw [elements_clear]; exact distinct_nil⟩

end RobinHood.Seating
