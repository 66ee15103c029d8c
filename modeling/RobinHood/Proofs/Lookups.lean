import RobinHood.Proofs.Reachable
import RobinHood.Proofs.Seating.Lookup

/-!
# Lookups

Whatever tables and sets have been through, with colliding hashes and runs that wrap around, looking up a key is
to scan all buckets for it. For this a hash function has to respect the equality of keys, and nothing else.
-/

namespace RobinHood

open RobinHood.Seating

variable {K : Type} [BEq K]

/-- Lookups in the set are scans, and a key that is placed after a miss is found where it was placed. -/
structure FixedSet.Searches (s : FixedSet K) : Prop where
  searchable : s.toSeating.Searchable id s.hashOf
  search : ∀ key, s.search key = .ok ⟨s.scan (· == key), if s.table.isDense then 0 else s.hashOf key⟩
  meets : ∀ key probe, s.isFull = false → s.search key = .ok probe → probe.bucket = none →
    ∃ bucket t, (FixedSet.insertNew key probe.hash).runOn s = (.ok bucket, t) ∧
      t.slots.occupant bucket = some key ∧ t.search key = .ok ⟨some bucket, probe.hash⟩

theorem FixedSet.Keeps.searches [EquivBEq K] {hasher : Hasher K} {c : Nat} {s : FixedSet K} {m : List K}
    (h : FixedSet.Keeps hasher c s m) (hlawful : hasher.Lawful) : s.Searches := by
  have hagrees : ∀ key, s.Agrees id s.hashOf key (s.hashOf key) := fun key x _ hx => by
    rw [FixedSet.hashOf, FixedSet.hashOf, h.hashes]
    exact hlawful s.table.seed x key hx
  have horderly : s.Orderly s.hashOf := by
    rw [h.hashOf]
    exact h.seating.orderly
  have hsearchable := horderly.searchable (h.seating.distinct.perm h.seating.elements.symm)
  refine ⟨hsearchable, fun key => hsearchable.find key _ (hagrees key), fun key probe hfull hsearch hmiss => ?_⟩
  obtain ⟨seated, hok, hseats, hfind⟩ := hsearchable.meets key key probe BEq.rfl (hagrees key) hfull hsearch hmiss
  refine ⟨_, _, runOn_insertNew (beq_eq_false_iff_ne.mp hfull) hok, hseats.landed, ?_⟩
  rw [FixedSet.search, FixedSet.hashOf, hseats.like.seed]
  exact hfind

/-- A lookup is a scan of all occupied buckets: in every table whose elements have different keys, whatever their
hashes are, and in every set, if equal keys have equal hashes. -/
theorem lookups_scan :
    (∀ {α K : Type} [BEq K] [EquivBEq K] (keyOf : α → K) (hashOf : α → UInt64) (capacity : Nat) (seed : UInt64)
      (s : Seating α), s.Populated keyOf hashOf capacity seed → s.Searchable keyOf hashOf) ∧
    ∀ {K : Type} [BEq K] [EquivBEq K] (hasher : Hasher K), hasher.Lawful →
      ∀ s : FixedSet K, AnySet.Reachable hasher (.fixed s) → s.Searches := by
  refine ⟨fun keyOf hashOf capacity seed s hpopulated => ?_, fun hasher hlawful s hreachable => ?_⟩
  · obtain ⟨horderly, hdistinct⟩ := hpopulated.orderly
    exact horderly.searchable hdistinct
  · obtain ⟨c, m, hkeeps⟩ := hreachable.lawful hlawful
    exact FixedSet.Keeps.searches hkeeps hlawful

/-- Two keys have their home in the last of 32 buckets, and one in the first. The run of the three wraps around; the
second of the two is found past the end, and another key with the same home is missed behind the third. -/
theorem lookups_scan_wrapped : ∃ s : FixedSet Nat,
    Hasher.Lawful (fun _ (key : Nat) => key.toUInt64) ∧ AnySet.Reachable (fun _ key => key.toUInt64) (.fixed s) ∧
    s.Searches ∧ s.search 63 = .ok ⟨some 0, 63⟩ ∧ s.search 95 = .ok ⟨none, 95⟩ ∧ s.isFull = false := by
  have hlawful : Hasher.Lawful (fun _ (key : Nat) => key.toUInt64) := by
    intro seed a b hab
    rw [beq_iff_eq.mp hab]
  have hnew : AnySet.Reachable (fun _ (key : Nat) => key.toUInt64) (.fixed ⟨_, _⟩) :=
    .fixed (rfl : FixedSet.vacant 16 _ 0 = .ok _)
  have hlast := hnew.callFixed (.member (.insert 31) : FixedSet.Call Nat Empty)
  have hfirst := hlast.callFixed (.member (.insert 32) : FixedSet.Call Nat Empty)
  have hpast := hfirst.callFixed (.member (.insert 63) : FixedSet.Call Nat Empty)
  exact ⟨_, hlawful, hpast, lookups_scan.2 _ hlawful _ hpast, rfl, rfl, rfl⟩

end RobinHood
