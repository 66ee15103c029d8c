import RobinHood.Proofs.Seating.Basic

/-!
# Searching a seating

A search starts at the home of the hash and gives up at the first free bucket, which it meets whatever the
hashes are. In an orderly seating that is late enough: all buckets between an occupant and its home are
occupied.
-/

namespace RobinHood

variable {α : Type} {hashOf : α → UInt64}

namespace Seating

variable {s : Seating α} {isMatch : α → Bool}

/-- What a search has to answer: the bucket of a match, or that no element matches. -/
def Finds (s : Seating α) (isMatch : α → Bool) : Option Nat → Prop
  | some b => ∃ x, s.slots.occupant b = some x ∧ isMatch x = true
  | none => ∀ x ∈ s.slots.elements, isMatch x = false

/-- From a bucket `k` steps before the first gap, the search sees the `k` occupants in between. -/
private theorem seek_of_gap (isMatch : α → Bool) {slots : Slots α} {occupancy : Bitmap} (hmarks : occupancy.Marks slots)
    {k : Nat} :
    ∀ {fuel b : Nat}, k < fuel → b < slots.size →
      slots.occupant (Cyclic.ahead slots.size b k) = none →
      (∀ j < k, slots.occupant (Cyclic.ahead slots.size b j) ≠ none) →
      (∃ c x, occupancy.seek (fun i => isMatch <$> slots.get i) fuel b = .ok (some c) ∧
        slots.occupant c = some x ∧ isMatch x = true) ∨
      (occupancy.seek (fun i => isMatch <$> slots.get i) fuel b = .ok none ∧
        ∀ j < k, ∀ x, slots.occupant (Cyclic.ahead slots.size b j) = some x → isMatch x = false) := by
  induction k with
  | zero =>
    intro fuel b hfuel hb hgap _
    obtain ⟨fuel, rfl⟩ : ∃ m, fuel = m + 1 := ⟨fuel - 1, by omega⟩
    rw [Cyclic.ahead_zero hb] at hgap
    right
    constructor
    · rw [Bitmap.seek, Bitmap.isSet_of_lt (hmarks.size.symm ▸ hb), hmarks.bit, hgap]
      rfl
    · intro j hj
      omega
  | succ k ih =>
    intro fuel b hfuel hb hgap hrun
    obtain ⟨fuel, rfl⟩ : ∃ m, fuel = m + 1 := ⟨fuel - 1, by omega⟩
    have hhere := hrun 0 (Nat.succ_pos k)
    rw [Cyclic.ahead_zero hb] at hhere
    obtain ⟨x, hx⟩ := Option.ne_none_iff_exists'.mp hhere
    by_cases hmatch : isMatch x = true
    · left
      refine ⟨b, x, ?_, hx, hmatch⟩
      rw [Bitmap.seek, Bitmap.isSet_of_lt (hmarks.size.symm ▸ hb), hmarks.bit, hx, Slots.get_of_occupant hx, ← hmatch]
      simp [hmatch, bind, Except.bind, Functor.map, Except.map, pure, Except.pure]
    · rw [Bool.not_eq_true] at hmatch
      have hstep : occupancy.seek (fun i => isMatch <$> slots.get i) (fuel + 1) b =
          occupancy.seek (fun i => isMatch <$> slots.get i) fuel (Cyclic.next slots.size b) := by
        rw [Bitmap.seek, Bitmap.isSet_of_lt (hmarks.size.symm ▸ hb), hmarks.bit, hx, Slots.get_of_occupant hx, hmarks.size]
        simp [hmatch, bind, Except.bind, Functor.map, Except.map]
      rw [hstep]
      obtain hfound | ⟨hnone, hrest⟩ := ih (by omega : k < fuel) (Cyclic.next_lt (by omega) b)
        (by rwa [Cyclic.ahead_next]) fun j hj => by rw [Cyclic.ahead_next]; exact hrun _ (by omega)
      · exact .inl hfound
      · right
        refine ⟨hnone, fun j hj y hy => ?_⟩
        match j with
        | 0 =>
          rw [Cyclic.ahead_zero hb, hx] at hy
          rw [← Option.some.inj hy, hmatch]
        | j + 1 => exact hrest j (by omega) y (by rwa [Cyclic.ahead_next])

/-- In a probed seating the search meets every occupant before the first gap behind the home. -/
private theorem InStep.find_probed {occupancy : Bitmap} (h : s.InStep)
    (hprobed : s.table.layout = .probed occupancy) (hash : UInt64) (isMatch : α → Bool) :
    (∃ c x, s.find hash isMatch = .ok ⟨some c, hash⟩ ∧ s.slots.occupant c = some x ∧ isMatch x = true) ∨
    ∃ k, s.find hash isMatch = .ok ⟨none, hash⟩ ∧
      s.slots.occupant (Cyclic.ahead s.slots.size (Cyclic.home s.slots.size hash) k) = none ∧
      ∀ j < k, ∀ x, s.slots.occupant (Cyclic.ahead s.slots.size (Cyclic.home s.slots.size hash) j) = some x →
        isMatch x = false := by
  have hdense := not_isDense_of_layout hprobed
  have hn : 0 < s.slots.size := Nat.zero_lt_of_lt (h.one_lt_size hdense)
  have hmarks := h.marks hprobed
  obtain ⟨k, hk, hgap, hrun⟩ :=
    Slots.exists_gap s.slots (h.length_lt hdense) (Cyclic.home_lt hn hash)
  have hfind : ∀ found, occupancy.seek (fun i => isMatch <$> s.slots.get i) s.slots.size
      (Cyclic.home s.slots.size hash) = .ok found → s.find hash isMatch = .ok ⟨found, hash⟩ := by
    intro found hfound
    rw [find, Table.find, hprobed]
    simp only [hmarks.size, hfound]
    rfl
  obtain ⟨c, x, hseek, hx, hmatch⟩ | ⟨hseek, hmiss⟩ :=
    seek_of_gap isMatch hmarks hk (Cyclic.home_lt hn hash) hgap hrun
  · exact .inl ⟨c, x, hfind _ hseek, hx, hmatch⟩
  · exact .inr ⟨k, hfind _ hseek, hgap, hmiss⟩

/-- In an orderly probed seating no occupant with the hash searched for sits behind that gap. -/
private theorem Orderly.find_probed {occupancy : Bitmap} (h : s.Orderly hashOf)
    (hprobed : s.table.layout = .probed occupancy) {hash : UInt64}
    (hhash : ∀ x ∈ s.slots.elements, isMatch x = true → hashOf x = hash) :
    ∃ found, s.find hash isMatch = .ok ⟨found, hash⟩ ∧ s.Finds isMatch found := by
  obtain ⟨c, x, hfind, hx, hmatch⟩ | ⟨k, hfind, hgap, hmiss⟩ := h.toInStep.find_probed hprobed hash isMatch
  · exact ⟨some c, hfind, x, hx, hmatch⟩
  · refine ⟨none, hfind, fun x hx => ?_⟩
    by_contra hmatch
    rw [Bool.not_eq_false] at hmatch
    obtain ⟨i, hi⟩ := Slots.mem_elements.mp hx
    have hin := Slots.lt_size_of_occupant hi
    have hplace := Cyclic.ahead_displacement hin (hashOf x)
    rw [hhash x hx hmatch] at hplace
    -- The gap lies before the occupant or after it; neither can be.
    by_cases hbefore : Cyclic.displacement s.slots.size hash i < k
    · have hfalse := hmiss _ hbefore x (by rwa [hplace])
      rw [hmatch] at hfalse
      cases hfalse
    · have hprofile : s.slots.profile hashOf i = some (Cyclic.displacement s.slots.size hash i) := by
        rw [Slots.profile, hi, ← hhash x hx hmatch]
        rfl
      obtain ⟨g, hg, _⟩ := (h.inOrder (not_isDense_of_layout hprobed)).reach (by omega) (by rwa [hplace])
        (le_refl _) (by omega : k ≤ _)
      rw [Slots.profile_eq_none.mpr hgap] at hg
      cases hg

theorem findM?_of_ok {ι : Type} {f : ι → Except Fault Bool} {p : ι → Bool} {l : List ι}
    (h : ∀ i ∈ l, f i = .ok (p i)) : l.findM? f = .ok (l.find? p) := by
  induction l with
  | nil => rfl
  | cons i l ih =>
    rw [List.findM?, h i List.mem_cons_self, List.find?_cons]
    cases hp : p i with
    | true => rfl
    | false =>
      exact ih fun j hj => h j (List.mem_cons_of_mem i hj)

private theorem InStep.find_dense (isMatch : α → Bool) (h : s.InStep) (hdense : s.table.layout = .dense) (hash : UInt64) :
    ∃ found, s.find hash isMatch = .ok ⟨found, 0⟩ ∧ s.Finds isMatch found := by
  have hread : ∀ i ∈ List.range s.table.count,
      isMatch <$> s.slots.get i = .ok ((s.slots.occupant i).any isMatch) := by
    intro i hi
    have hne := (h.lt_count_iff hdense).mp (List.mem_range.mp hi)
    obtain ⟨x, hx⟩ := Option.ne_none_iff_exists'.mp hne
    rw [Slots.get_of_occupant hx, hx]
    rfl
  refine ⟨(List.range s.table.count).find? fun i => (s.slots.occupant i).any isMatch, ?_, ?_⟩
  · rw [find, Table.find, hdense]
    simp only [findM?_of_ok hread]
    rfl
  · cases hfind : (List.range s.table.count).find? fun i => (s.slots.occupant i).any isMatch with
    | some b =>
      have hb := List.find?_some hfind
      rwa [Option.any_eq_true] at hb
    | none =>
      intro x hx
      obtain ⟨i, hi⟩ := Slots.mem_elements.mp hx
      have hlt : i < s.table.count := (h.lt_count_iff hdense).mpr (by rw [hi]; exact Option.some_ne_none x)
      have hmiss := List.find?_eq_none.mp hfind i (List.mem_range.mpr hlt)
      rwa [hi, Option.any_some, Bool.not_eq_true] at hmiss

/-- A search comes to an end, and what it finds is a match, whatever the hashes are. -/
theorem InStep.find (h : s.InStep) (hash : UInt64) (isMatch : α → Bool) :
    ∃ found, s.find hash isMatch = .ok ⟨found, if s.table.isDense then 0 else hash⟩ ∧
      ∀ b, found = some b → ∃ x, s.slots.occupant b = some x ∧ isMatch x = true := by
  cases hlayout : s.table.layout with
  | dense =>
    obtain ⟨found, hfind, hfinds⟩ := h.find_dense isMatch hlayout hash
    rw [if_pos (isDense_of_layout hlayout)]
    refine ⟨found, hfind, ?_⟩
    rintro b rfl
    exact hfinds
  | probed occupancy =>
    rw [not_isDense_of_layout hlayout]
    obtain ⟨c, x, hfind, hx, hmatch⟩ | ⟨k, hfind, -⟩ := h.find_probed hlayout hash isMatch
    · refine ⟨some c, hfind, ?_⟩
      rintro _ ⟨⟩
      exact ⟨x, hx, hmatch⟩
    · exact ⟨none, hfind, nofun⟩

/-- A search with the hash that a match would have finds a match if there is one. -/
theorem Orderly.find (isMatch : α → Bool) (h : s.Orderly hashOf) {hash : UInt64}
    (hhash : ∀ x ∈ s.slots.elements, isMatch x = true → hashOf x = hash) :
    ∃ found, s.find hash isMatch = .ok ⟨found, if s.table.isDense then 0 else hash⟩ ∧
      s.Finds isMatch found := by
  cases hlayout : s.table.layout with
  | dense =>
    rw [if_pos (isDense_of_layout hlayout)]
    exact h.toInStep.find_dense isMatch hlayout hash
  | probed occupancy =>
    rw [not_isDense_of_layout hlayout]
    exact h.find_probed hlayout hhash

end Seating

end RobinHood
