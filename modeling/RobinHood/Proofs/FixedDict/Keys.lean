import RobinHood.Proofs.FixedDict.Upkeep
import RobinHood.Proofs.Mirror

/-!
# The keys of a dictionary as a set

A fixed set that goes through the changes of a fixed dictionary is its key table all along: the same buckets are
occupied by the same keys, and the same hashes were used to put them there.
-/

namespace RobinHood.FixedDict

open RobinHood.Action

variable {K V : Type} {hasher : Hasher K} {c b : Nat} {d : FixedDict K V} {m : List (K × V)} {x : K × V}

theorem vacant_keys (c : Nat) (hasher : Hasher K) (seed : UInt64) :
    FixedSet.vacant c hasher seed = keys <$> (vacant c hasher seed : Except Fault (FixedDict K V)) := by
  rw [vacant]
  cases FixedSet.vacant c hasher seed <;> rfl

theorem mirrors_removeAll (d : FixedDict K V) : Mirrors keys id FixedSet.removeAll removeAll d := by
  rw [Mirrors, FixedSet.removeAll, removeAll, runOn_modify, runOn_modify]
  by_cases hempty : d.isEmpty = true
  · rw [if_pos hempty, if_pos (show d.keys.isEmpty = true from hempty)]
    rfl
  · rw [if_neg hempty, if_neg (show ¬ d.keys.isEmpty = true from hempty)]
    rfl

theorem Steady.mirrors_insertNew (h : Steady hasher c d m) (hroom : m.length < c) (x : K × V) (hash : UInt64) :
    Mirrors FixedDict.keys id (FixedSet.insertNew x.1 hash) (FixedDict.insertNew x.1 x.2 hash) d := by
  have hcount := h.count
  obtain ⟨s, rfl, rfl, hstep, -⟩ := h
  have hless : s.table.count < s.table.capacity := hcount ▸ hroom
  obtain ⟨seated, hok, hseats⟩ := hstep.seat hless (Seating.entryHash Prod.fst hasher s) x hash
  rw [Mirrors, runOn_insertNew hless.ne hok hseats, FixedSet.runOn_insertNew hless.ne (keys_seat hok)]
  rfl

theorem Steady.mirrors_removeAt (h : Steady hasher c d m) (hx : Holds d b x) :
    Mirrors FixedDict.keys Prod.fst (FixedSet.removeAt b) (FixedDict.removeAt b) d := by
  obtain ⟨s, rfl, -, hstep, -⟩ := h
  obtain ⟨unseated, hok, hunseats⟩ := hstep.unseat (Seating.entryHash Prod.fst hasher s) (holds_ofEntries.mp hx)
  have hrun := runOn_removeAt hok hunseats (some x.2)
  rw [assignValue_self hx] at hrun
  rw [Mirrors, hrun, FixedSet.runOn_removeAt (keys_unseat hok)]
  rfl

theorem Steady.mirrors_abandonAt (h : Steady hasher c d m) (hx : Holds d b x) :
    Mirrors FixedDict.keys Prod.fst (FixedSet.abandonAt b) (FixedDict.abandonAt b) d := by
  obtain ⟨s, rfl, -, hstep, -⟩ := h
  obtain ⟨unseated, hok, hunseats⟩ := hstep.abandon (holds_ofEntries.mp hx)
  have hrun : (FixedDict.abandonAt b).runOn ((ofEntries hasher s).assignValue b (some x.2)) = _ :=
    runOn_abandonAt hok hunseats (some x.2)
  rw [assignValue_self hx] at hrun
  rw [Mirrors, hrun, FixedSet.runOn_abandonAt (keys_abandon hok)]
  rfl

/-- Keys and entries are listed in the same order. -/
theorem Steady.elements_keys (h : Steady hasher c d m) :
    Backing.elements d.keys = List.map Prod.fst <$> Backing.elements d := by
  obtain ⟨s, rfl, -, hstep, -⟩ := h
  have hkeys : Backing.elements (ofEntries hasher s).keys = .ok (s.slots.map Prod.fst).elements :=
    FixedSet.toList_intoIter (hstep.map Prod.fst)
  have hentries : Backing.elements (ofEntries hasher s) = .ok s.slots.elements := toList_intoIter hstep
  rw [hkeys, hentries, Slots.elements_map]
  rfl

end RobinHood.FixedDict
