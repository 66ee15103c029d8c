import RobinHood.Proofs.Reachable
import RobinHood.Proofs.Seating.Invariant
import RobinHood.Proofs.Seating.Relay

/-!
# Insertions that displace residents

Wherever a new key is placed while there is room, it arrives by a relay: in tables on their own, in sets, and in
dictionaries, whose values go along with the keys. No hash function can make it fail.
-/

namespace RobinHood

theorem Table.count_lt_of_not_full {table : Table} (hle : table.count ≤ table.capacity) (hfull : table.isFull = false) :
    table.count < table.capacity :=
  Nat.lt_of_le_of_ne hle (beq_eq_false_iff_ne.mp hfull)

theorem FixedSet.insertNew_admits {K : Type} {s : FixedSet K} (h : s.toSeating.InStep) (hfull : s.isFull = false)
    (key : K) (hash : UInt64) : ∃ seated, s.toSeating.Admits s.hashOf key hash seated ∧
      (FixedSet.insertNew key hash).runOn s = (.ok seated.landed, { s with toSeating := seated.seating }) := by
  have hroom := Table.count_lt_of_not_full h.count_le hfull
  obtain ⟨seated, hadmits⟩ := h.admits hroom s.hashOf key hash
  exact ⟨seated, hadmits, runOn_insertNew (Nat.ne_of_lt hroom) hadmits.seats⟩

theorem FixedDict.insertNew_admits {K V : Type} {hasher : Hasher K} {s : Seating (K × V)} (h : s.InStep)
    (hfull : (ofEntries hasher s).isFull = false) (key : K) (value : V) (hash : UInt64) :
    ∃ seated, s.Admits (Seating.entryHash Prod.fst hasher s) (key, value) hash seated ∧
      (insertNew key value hash).runOn (ofEntries hasher s) = (.ok seated.landed, ofEntries hasher seated.seating) := by
  have hroom := Table.count_lt_of_not_full h.count_le hfull
  obtain ⟨seated, hadmits⟩ := h.admits hroom (Seating.entryHash Prod.fst hasher s) (key, value) hash
  obtain ⟨swapped, free, hrelay⟩ := hadmits.relay
  exact ⟨seated, hadmits, runOn_insertNew (Nat.ne_of_lt hroom) hadmits.seats hrelay.toSeats⟩

/-- Whatever a table, a set or a dictionary has been through, a new element is placed as long as there is
room, and it arrives by a relay. -/
theorem insertions_relay :
    (∀ {α : Type} (hashOf : α → UInt64) (capacity : Nat) (seed : UInt64) (s : Seating α),
      s.Reached hashOf capacity seed → s.table.isFull = false →
      ∀ x hash, ∃ seated, s.Admits hashOf x hash seated) ∧
    (∀ {K : Type} [BEq K] (hasher : Hasher K) (s : FixedSet K),
      AnySet.Reachable hasher (.fixed s) → s.isFull = false →
      ∀ key hash, ∃ seated, s.toSeating.Admits s.hashOf key hash seated ∧
        (FixedSet.insertNew key hash).runOn s = (.ok seated.landed, { s with toSeating := seated.seating })) ∧
    ∀ {K V : Type} [BEq K] (hasher : Hasher K) (d : FixedDict K V),
      AnyDict.Reachable hasher (.fixed d) → d.isFull = false →
      ∃ s, d = FixedDict.ofEntries hasher s ∧ ∀ key value hash, ∃ seated,
        s.Admits (Seating.entryHash Prod.fst hasher s) (key, value) hash seated ∧
        (FixedDict.insertNew key value hash).runOn d = (.ok seated.landed, FixedDict.ofEntries hasher seated.seating) := by
  refine ⟨fun hashOf capacity seed s hreached hfull x hash => ?_, fun hasher s hreachable hfull key hash => ?_,
    fun hasher d hreachable hfull => ?_⟩
  · have hstep := hreached.orderly.1.toInStep
    exact hstep.admits (Table.count_lt_of_not_full hstep.count_le hfull) hashOf x hash
  · obtain ⟨c, m, hkeeps⟩ := hreachable.steady
    exact FixedSet.insertNew_admits hkeeps.inStep hfull key hash
  · obtain ⟨c, m, hsteady⟩ := hreachable.keptBy (FixedDict.steady hasher)
    obtain ⟨s, rfl, hstep⟩ := (FixedDict.steady hasher).entries hsteady
    exact ⟨s, rfl, fun key value hash => FixedDict.insertNew_admits hstep hfull key value hash⟩

/-- Two keys have their home in the last of 32 buckets, and one in the first. The second of the two comes past the
end and takes the place of the other, which goes one bucket on. -/
theorem insertions_relay_wrapped : ∃ (s : FixedSet Nat) (seated : Seated Nat),
    AnySet.Reachable (fun _ key => key.toUInt64) (.fixed s) ∧ s.isFull = false ∧
    s.toSeating.Admits s.hashOf 63 63 seated ∧ seated.moves = [.swap 0, .settle 1] ∧ seated.landed = 0 ∧
    seated.seating.slots.elements = [63, 32, 31] := by
  have hnew : AnySet.Reachable (fun _ (key : Nat) => key.toUInt64) (.fixed ⟨_, _⟩) :=
    .fixed (rfl : FixedSet.vacant 16 _ 0 = .ok _)
  have hlast := hnew.callFixed (.member (.insert 31) : FixedSet.Call Nat Empty)
  have hfirst := hlast.callFixed (.member (.insert 32) : FixedSet.Call Nat Empty)
  obtain ⟨seated, hadmits, -⟩ := insertions_relay.2.1 _ _ hfirst rfl 63 63
  have hseats := hadmits.seats
  cases hseats
  exact ⟨_, _, hfirst, rfl, hadmits, rfl, rfl, rfl⟩

end RobinHood
