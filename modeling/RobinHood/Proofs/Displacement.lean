import Mathlib.Data.Finset.Lattice.Fold
import Mathlib.Order.Lattice.Nat
import RobinHood.Proofs.History
import RobinHood.Proofs.Seating.Invariant

/-!
# Nobody has to sit farther from home

Among all ways to put the same elements into the same number of buckets so that linear probing finds them, the
arrangement of a probed table keeps the one that is farthest from home as close as possible. No removal spoils
this, as it leaves the table in order.
-/

namespace RobinHood

open Cyclic (ahead home displacement)

variable {α : Type} {hashOf : α → UInt64}

namespace Slots

variable {slots other : Slots α} {b d : Nat} {x : α}

/-- How far the occupant that is farthest from its home is from there. -/
def farthest (slots : Slots α) (hashOf : α → UInt64) : Nat :=
  (Finset.range slots.size).sup fun b => (slots.profile hashOf b).getD 0

theorem displacement_le_farthest (hashOf : α → UInt64) (hx : slots.occupant b = some x) :
    displacement slots.size (hashOf x) b ≤ slots.farthest hashOf := by
  have hle := Finset.le_sup (f := fun b => (slots.profile hashOf b).getD 0)
    (Finset.mem_range.mpr (lt_size_of_occupant hx))
  have hprofile : slots.profile hashOf b = some (displacement slots.size (hashOf x) b) := by
    rw [profile, hx]
    rfl
  rwa [hprofile] at hle

theorem farthest_le (h : ∀ b x, slots.occupant b = some x → displacement slots.size (hashOf x) b ≤ d) :
    slots.farthest hashOf ≤ d := by
  apply Finset.sup_le
  intro b _
  cases hx : slots.occupant b with
  | none =>
    rw [profile_eq_none.mpr hx]
    exact Nat.zero_le d
  | some x =>
    rw [profile, hx]
    exact h b x hx

/-- `other` holds the same elements in as many buckets, and none of them behind a free bucket on the way from its
home. -/
structure Arranges (hashOf : α → UInt64) (slots other : Slots α) : Prop where
  size : other.size = slots.size
  elements : other.elements.Perm slots.elements
  reachable : ∀ b x, other.occupant b = some x → ∀ i ≤ displacement other.size (hashOf x) b,
    other.occupant (ahead other.size (home other.size (hashOf x)) i) ≠ none

theorem Arranges.linear (h : slots.Arranges hashOf other) :
    (other.homes fun x => home other.size (hashOf x)).Linear other.size where
  lt b u hu := by
    obtain ⟨x, hx, rfl⟩ := Option.map_eq_some_iff.mp hu
    have hb := lt_size_of_occupant hx
    exact ⟨hb, Cyclic.home_lt (Nat.zero_lt_of_lt hb) _⟩
  path b u hu i hi := by
    obtain ⟨x, hx, rfl⟩ := Option.map_eq_some_iff.mp hu
    intro hnone
    exact h.reachable b x hx i hi (Option.map_eq_none_iff.mp hnone)

theorem Arranges.tally_eq (h : slots.Arranges hashOf other) (p : Nat → Bool) :
    (slots.homes fun x => home slots.size (hashOf x)).tally slots.size p =
      (other.homes fun x => home other.size (hashOf x)).tally other.size p := by
  rw [tally_homes, tally_homes, h.size]
  exact (h.elements.countP_eq _).symm

end Slots

namespace Seating

variable {s : Seating α} {other : Slots α}

theorem Orderly.homes_sound (h : s.Orderly hashOf) (hprobed : s.table.isDense = false) :
    (s.slots.homes fun x => home s.slots.size (hashOf x)).Sound s.slots.size := by
  have hsound := h.sound hprobed
  unfold homeOf at hsound
  rwa [← h.size_slots] at hsound

theorem Orderly.arranges (h : s.Orderly hashOf) (hprobed : s.table.isDense = false) :
    s.slots.Arranges hashOf s.slots where
  size := rfl
  elements := .refl _
  reachable b _ hx i hi hnone := (h.homes_sound hprobed).linear.path b _
    (Slots.homes_of_occupant hx fun x => home s.slots.size (hashOf x)) i hi (Option.map_eq_none_iff.mpr hnone)

theorem Orderly.farthest_le (h : s.Orderly hashOf) (hprobed : s.table.isDense = false)
    (harranges : s.slots.Arranges hashOf other) : s.slots.farthest hashOf ≤ other.farthest hashOf := by
  apply Slots.farthest_le
  intro b x hx
  obtain ⟨free, hfree, hnone⟩ := Slots.exists_vacant (h.length_lt hprobed)
  have hlinear := harranges.linear
  have hsame := harranges.tally_eq
  rw [harranges.size] at hlinear hsame
  obtain ⟨c, v, hv, hle⟩ := (h.homes_sound hprobed).exists_farther hlinear hsame hfree
    (Option.map_eq_none_iff.mpr hnone) (Slots.homes_of_occupant hx fun x => home s.slots.size (hashOf x))
  obtain ⟨y, hy, rfl⟩ := Option.map_eq_some_iff.mp hv
  have hfar := Slots.displacement_le_farthest hashOf hy
  rw [harranges.size] at hfar
  exact hle.trans hfar

theorem Orderly.isLeast_farthest (h : s.Orderly hashOf) (hlarge : Table.denseLimit < s.table.capacity) :
    IsLeast {d | ∃ other, s.slots.Arranges hashOf other ∧ other.farthest hashOf = d} (s.slots.farthest hashOf) := by
  have hprobed := h.shaped.probed_of_large hlarge
  refine ⟨⟨s.slots, h.arranges hprobed, rfl⟩, ?_⟩
  rintro d ⟨other, harranges, rfl⟩
  exact h.farthest_le hprobed harranges

end Seating

/-- Whatever tables, and sets with them, for more than `denseLimit` elements have been through, the greatest distance
from home is the least that any arrangement of the elements has. -/
theorem displacement_minimal :
    (∀ {α : Type} (hashOf : α → UInt64) (capacity : Nat) (seed : UInt64) (s : Seating α),
      s.Reached hashOf capacity seed → Table.denseLimit < capacity →
      IsLeast {d | ∃ other, s.slots.Arranges hashOf other ∧ other.farthest hashOf = d} (s.slots.farthest hashOf)) ∧
    ∀ {K : Type} [BEq K] [EquivBEq K] (hasher : Hasher K) (s : FixedSet K), hasher.Lawful →
      AnySet.Reachable hasher (.fixed s) → Table.denseLimit < s.capacity →
      IsLeast {d | ∃ other, s.slots.Arranges s.hashOf other ∧ other.farthest s.hashOf = d}
        (s.slots.farthest s.hashOf) := by
  constructor
  · intro α hashOf capacity seed s hreached hlarge
    obtain ⟨horderly, rfl⟩ := hreached.orderly
    exact horderly.isLeast_farthest hlarge
  · intro K _ _ hasher s hlawful hreachable hlarge
    exact (hreachable.orderly hlawful).isLeast_farthest hlarge

/-- Two keys have their home in the last of 32 buckets, and one in the first, where a third had been before it was
removed. Nobody is more than one bucket from home; with the latter two exchanged somebody would be. -/
theorem displacement_minimal_wrapped : ∃ (s : FixedSet Nat) (other : Slots Nat),
    AnySet.Reachable (fun _ key => key.toUInt64) (.fixed s) ∧ s.slots.elements = [63, 32, 31] ∧
    IsLeast {d | ∃ other, s.slots.Arranges s.hashOf other ∧ other.farthest s.hashOf = d} 1 ∧
    s.slots.Arranges s.hashOf other ∧ other.elements = [32, 63, 31] ∧ other.farthest s.hashOf = 2 := by
  have hnew : AnySet.Reachable (fun _ (key : Nat) => key.toUInt64) (.fixed ⟨_, _⟩) :=
    .fixed (rfl : FixedSet.vacant 16 _ 0 = .ok _)
  have hlast := hnew.callFixed (.member (.insert 31) : FixedSet.Call Nat Empty)
  have hfirst := hlast.callFixed (.member (.insert 64) : FixedSet.Call Nat Empty)
  have hgone := hfirst.callFixed (.member (.remove 64) : FixedSet.Call Nat Empty)
  have htwo := hgone.callFixed (.member (.insert 32) : FixedSet.Call Nat Empty)
  have hthree := htwo.callFixed (.member (.insert 63) : FixedSet.Call Nat Empty)
  have hleast := displacement_minimal.2 _ _ (fun _ a b hab => by rw [eq_of_beq hab]) hthree
    (by decide : Table.denseLimit < 16)
  let other : Slots Nat := (((Slots.vacant 32).assign 31 (some 31)).assign 0 (some 32)).assign 1 (some 63)
  have hreachable : ∀ b < 32, ∀ x ∈ (other.occupant b).toList, ∀ i ≤ displacement 32 x.toUInt64 b,
      other.occupant (ahead 32 (home 32 x.toUInt64) i) ≠ none := by decide
  refine ⟨_, other, hthree, by decide +kernel, ?_, ⟨by decide +kernel, by decide +kernel, ?_⟩, by decide +kernel,
    by decide +kernel⟩
  · convert hleast using 1
    decide +kernel
  · intro b x hx
    exact hreachable b (Slots.lt_size_of_occupant hx) x (by rw [hx]; exact List.mem_singleton_self x)

end RobinHood
