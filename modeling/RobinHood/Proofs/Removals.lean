import RobinHood.Proofs.Reachable
import RobinHood.Proofs.Seating.BackShift

/-!
# Removals shift back

Whatever probed tables, sets and dictionaries have been through, taking out whoever is in a bucket moves those
behind him who are away from home one bucket back, and nobody else. The values of a dictionary go along with
the keys. The storage of a growing container is a fixed one that it may be turned into at any time.
-/

namespace RobinHood

theorem Seating.Orderly.exists_shiftsBack {α : Type} {hashOf : α → UInt64} {s : Seating α} (h : s.Orderly hashOf)
    (hlarge : Table.denseLimit < s.table.capacity) {bucket : Nat} (hoccupied : s.table.isOccupied bucket = true) :
    ∃ unseated count run, Seating.ShiftsBack hashOf s bucket unseated count run := by
  obtain ⟨x, hx⟩ := h.exists_occupant hoccupied
  exact h.shiftsBack (h.shaped.probed_of_large hlarge) hx

/-- However tables, sets and dictionaries for more than `denseLimit` elements came about, every occupied bucket
can be emptied, and those behind it shift back. -/
theorem removals_shift_back :
    (∀ {α : Type} (hashOf : α → UInt64) (capacity : Nat) (seed : UInt64) (s : Seating α),
      s.Reached hashOf capacity seed → Table.denseLimit < capacity →
      ∀ bucket, s.table.isOccupied bucket = true →
        ∃ unseated count run, s.ShiftsBack hashOf bucket unseated count run) ∧
    (∀ {K : Type} [BEq K] [EquivBEq K] (hasher : Hasher K) (s : FixedSet K), hasher.Lawful →
      AnySet.Reachable hasher (.fixed s) → Table.denseLimit < s.capacity →
      ∀ bucket, s.table.isOccupied bucket = true →
        ∃ unseated count run, s.toSeating.ShiftsBack s.hashOf bucket unseated count run ∧
          (FixedSet.removeAt bucket).runOn s =
            (.ok unseated.element, { s with toSeating := unseated.seating })) ∧
    ∀ {K V : Type} [BEq K] [EquivBEq K] (hasher : Hasher K) (d : FixedDict K V), hasher.Lawful →
      AnyDict.Reachable hasher (.fixed d) → Table.denseLimit < d.capacity →
      ∃ s, d = FixedDict.ofEntries hasher s ∧ ∀ bucket, s.table.isOccupied bucket = true →
        ∃ unseated count run, s.ShiftsBack (Seating.entryHash Prod.fst hasher s) bucket unseated count run ∧
          (FixedDict.removeAt bucket).runOn d =
            (.ok (unseated.element.1, some unseated.element.2), FixedDict.ofEntries hasher unseated.seating) := by
  refine ⟨?_, ?_, ?_⟩
  · intro α hashOf capacity seed s hreached hlarge bucket hoccupied
    obtain ⟨horderly, rfl⟩ := hreached.orderly
    exact horderly.exists_shiftsBack hlarge hoccupied
  · intro K _ _ hasher s hlawful hreachable hlarge bucket hoccupied
    obtain ⟨unseated, count, run, hshifts⟩ := (hreachable.orderly hlawful).exists_shiftsBack hlarge hoccupied
    exact ⟨unseated, count, run, hshifts, FixedSet.runOn_removeAt hshifts.ok⟩
  · intro K V _ _ hasher d hlawful hreachable hlarge
    obtain ⟨c, m, s, rfl, -, hkeeps⟩ := hreachable.keptBy (FixedDict.lawful hlawful)
    refine ⟨s, rfl, fun bucket hoccupied => ?_⟩
    obtain ⟨unseated, count, run, hshifts⟩ := hkeeps.orderly.exists_shiftsBack hlarge hoccupied
    have hrun := FixedDict.runOn_removeAt hshifts.ok hshifts.toUnseats (some unseated.element.2)
    rw [FixedDict.assignValue_self (FixedDict.holds_ofEntries.mpr hshifts.element)] at hrun
    exact ⟨unseated, count, run, hshifts, hrun⟩

/-- Of 32 buckets the last and the four first are occupied. Two keys behind the one in the last bucket are away
from home, the next is not, though another behind it is. -/
theorem removals_shift_back_wrapped : ∃ (s : FixedSet Nat) (unseated : Unseated Nat) (run : Nat),
    AnySet.Reachable (fun _ key => key.toUInt64) (.fixed s) ∧ s.slots.elements = [63, 32, 2, 34, 31] ∧
    s.toSeating.ShiftsBack s.hashOf 31 unseated 2 run ∧ unseated.moves = [.shift 0 31, .shift 1 0] ∧
    unseated.seating.slots.elements = [32, 2, 34, 63] := by
  have hnew : AnySet.Reachable (fun _ (key : Nat) => key.toUInt64) (.fixed ⟨_, _⟩) :=
    .fixed (rfl : FixedSet.vacant 16 _ 0 = .ok _)
  have hone := hnew.callFixed (.member (.insert 31) : FixedSet.Call Nat Empty)
  have htwo := hone.callFixed (.member (.insert 63) : FixedSet.Call Nat Empty)
  have hthree := htwo.callFixed (.member (.insert 32) : FixedSet.Call Nat Empty)
  have hfour := hthree.callFixed (.member (.insert 2) : FixedSet.Call Nat Empty)
  have hfive := hfour.callFixed (.member (.insert 34) : FixedSet.Call Nat Empty)
  obtain ⟨unseated, count, run, hshifts, -⟩ :=
    removals_shift_back.2.1 _ _ (fun _ a b hab => by rw [eq_of_beq hab]) hfive (by decide) 31 rfl
  have hok := hshifts.ok
  cases hok
  have hcount : 2 = count := by
    have hlength := congrArg List.length hshifts.moves
    rw [Move.backshift, List.length_map, List.length_range] at hlength
    exact hlength
  subst hcount
  exact ⟨_, _, run, hfive, rfl, hshifts, rfl, rfl⟩

end RobinHood
