import RobinHood.Proofs.Calls.Dicts
import RobinHood.Proofs.Calls.Sets

/-!
# Containers that can come about

Containers are made empty or from a list, go through public calls, and are turned into containers of the
other kind; a call that stops with a fault leaves a container as well. The key table of a dictionary is a set
in its own right. What a way of keeping containers says holds of all of them.
-/

namespace RobinHood

variable {K V : Type}

inductive AnyDict (K V : Type) where
  | fixed (d : FixedDict K V)
  | growing (g : GrowDict K V)

inductive AnySet (K : Type) where
  | fixed (s : FixedSet K)
  | growing (g : GrowSet K)

variable [BEq K] {hasher : Hasher K}

namespace AnyDict

/-- The dictionaries that the public operations lead to. -/
inductive Reachable (hasher : Hasher K) : AnyDict K V → Prop
  | fixed {c : Nat} {seed : UInt64} {d : FixedDict K V} (h : FixedDict.vacant c hasher seed = .ok d) :
      Reachable hasher (.fixed d)
  | fixedList {c : Nat} {seed : UInt64} {entries : List (K × V)} {d : FixedDict K V}
      (h : FixedDict.ofList c hasher seed entries = .ok d) : Reachable hasher (.fixed d)
  | growing {minimum : Nat} {seeds : Seeds} {g : GrowDict K V} (h : GrowDict.vacant minimum hasher seeds = .ok g) :
      Reachable hasher (.growing g)
  | growingList {seeds : Seeds} {entries : List (K × V)} {hint : Nat} {g : GrowDict K V}
      (h : GrowDict.ofList hasher seeds entries hint = .ok g) : Reachable hasher (.growing g)
  | callFixed {ε R : Type} {d : FixedDict K V} (hd : Reachable hasher (.fixed d))
      (call : FixedDict.Call K V ε R) : Reachable hasher (.fixed ((FixedDict.carryOut call).runOn d).2)
  | callGrowing {ε R : Type} {g : GrowDict K V} (hg : Reachable hasher (.growing g))
      (call : GrowDict.Call K V ε R) : Reachable hasher (.growing ((GrowDict.carryOut call).runOn g).2)
  | freeze {g : GrowDict K V} (hg : Reachable hasher (.growing g)) : Reachable hasher (.fixed g.toFixed)
  | adopt {d : FixedDict K V} {seeds : Seeds} {g : GrowDict K V} (hd : Reachable hasher (.fixed d))
      (h : GrowDict.ofFixed d seeds = .ok g) : Reachable hasher (.growing g)

def KeptBy (U : FixedDict.Upkeep V hasher) : AnyDict K V → Prop
  | .fixed d => ∃ c, U.Has c d
  | .growing g => U.Kept g

theorem Reachable.keptBy {x : AnyDict K V} (h : Reachable hasher x) (U : FixedDict.Upkeep V hasher) :
    x.KeptBy U := by
  induction h with
  | fixed h => exact ⟨_, [], U.vacant h⟩
  | fixedList h => exact ⟨_, (FixedDict.ofList_made U _).good _ h⟩
  | growing h => exact ⟨[], ((GrowDict.vacant_made U).good _ h).1⟩
  | growingList h => exact (GrowDict.ofList_made U _ _).good _ h
  | callFixed _ call ih =>
    obtain ⟨c, hhas⟩ := ih
    exact ⟨c, (FixedDict.carryOut_safe hhas call).after⟩
  | callGrowing _ call ih => exact (GrowDict.carryOut_safe ih call).after.1
  | freeze _ ih =>
    obtain ⟨m, hheld⟩ := ih
    exact ⟨_, m, hheld.keeps⟩
  | adopt _ h ih =>
    obtain ⟨c, m, hkeeps⟩ := ih
    exact ((U.adopt_made hkeeps _).good _ h).1

end AnyDict

namespace AnySet

/-- The sets that the public operations lead to. -/
inductive Reachable (hasher : Hasher K) : AnySet K → Prop
  | fixed {c : Nat} {seed : UInt64} {s : FixedSet K} (h : FixedSet.vacant c hasher seed = .ok s) :
      Reachable hasher (.fixed s)
  | fixedList {c : Nat} {seed : UInt64} {source : List K} {s : FixedSet K}
      (h : FixedSet.ofList c hasher seed source = .ok s) : Reachable hasher (.fixed s)
  | growing {minimum : Nat} {seeds : Seeds} {g : GrowSet K} (h : GrowSet.vacant minimum hasher seeds = .ok g) :
      Reachable hasher (.growing g)
  | growingList {seeds : Seeds} {keys : List K} {hint : Nat} {g : GrowSet K}
      (h : GrowSet.ofList hasher seeds keys hint = .ok g) : Reachable hasher (.growing g)
  | keys {V : Type} {d : FixedDict K V} (hd : AnyDict.Reachable hasher (.fixed d)) : Reachable hasher (.fixed d.keys)
  | callFixed {ε : Type} {s : FixedSet K} (hs : Reachable hasher (.fixed s)) (call : FixedSet.Call K ε) :
      Reachable hasher (.fixed ((FixedSet.carryOut call).runOn s).2)
  | callGrowing {ε : Type} {g : GrowSet K} (hg : Reachable hasher (.growing g)) (call : GrowSet.Call K ε) :
      Reachable hasher (.growing ((GrowSet.carryOut call).runOn g).2)
  | freeze {g : GrowSet K} (hg : Reachable hasher (.growing g)) : Reachable hasher (.fixed g.toFixed)
  | adopt {s : FixedSet K} {seeds : Seeds} {g : GrowSet K} (hs : Reachable hasher (.fixed s))
      (h : GrowSet.ofFixed s seeds = .ok g) : Reachable hasher (.growing g)

def KeptBy (U : FixedSet.Upkeep hasher) : AnySet K → Prop
  | .fixed s => ∃ c, U.Has c s
  | .growing g => U.Kept g

/-- Sets are kept if the key tables of dictionaries are. -/
theorem Reachable.keptBy_of_keys {x : AnySet K} (h : Reachable hasher x) (U : FixedSet.Upkeep hasher)
    (hkeys : ∀ {V : Type} (d : FixedDict K V), AnyDict.Reachable hasher (.fixed d) → ∃ c, U.Has c d.keys) :
    x.KeptBy U := by
  induction h with
  | fixed h => exact ⟨_, [], U.vacant h⟩
  | fixedList h => exact ⟨_, (FixedSet.ofList_made U _).good _ h⟩
  | growing h => exact ⟨[], ((GrowSet.vacant_made U).good _ h).1⟩
  | growingList h => exact (GrowSet.ofList_made U _ _).good _ h
  | keys hd => exact hkeys _ hd
  | callFixed _ call ih =>
    obtain ⟨c, hhas⟩ := ih
    exact ⟨c, (FixedSet.carryOut_safe hhas call).after⟩
  | callGrowing _ call ih => exact (GrowSet.carryOut_safe ih call).after.1
  | freeze _ ih =>
    obtain ⟨m, hheld⟩ := ih
    exact ⟨_, m, hheld.keeps⟩
  | adopt _ h ih =>
    obtain ⟨c, m, hkeeps⟩ := ih
    exact ((U.adopt_made hkeeps _).good _ h).1

theorem Reachable.steady {x : AnySet K} (h : Reachable hasher x) : x.KeptBy (FixedSet.steady hasher) := by
  refine h.keptBy_of_keys _ fun d hd => ?_
  obtain ⟨c, m, hsteady⟩ := hd.keptBy (FixedDict.steady hasher)
  exact ⟨c, m.map Prod.fst, hsteady.keys⟩

/-- Every set keeps a ledger, if equal keys have equal hashes. -/
theorem Reachable.lawful [EquivBEq K] {x : AnySet K} (h : Reachable hasher x) (hlawful : hasher.Lawful) :
    x.KeptBy (FixedSet.lawful hlawful) := by
  refine h.keptBy_of_keys _ fun d hd => ?_
  obtain ⟨c, m, hkeeps⟩ := hd.keptBy (FixedDict.lawful hlawful)
  exact ⟨c, m.map Prod.fst, hkeeps.keys⟩

theorem Reachable.orderly [EquivBEq K] {s : FixedSet K} (h : Reachable hasher (.fixed s)) (hlawful : hasher.Lawful) :
    s.toSeating.Orderly s.hashOf := by
  obtain ⟨c, m, hkeeps⟩ := h.lawful hlawful
  rw [hkeeps.hashOf]
  exact hkeeps.seating.orderly

end AnySet

end RobinHood
