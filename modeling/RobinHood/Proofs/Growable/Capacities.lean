import RobinHood.Proofs.Reachable

/-!
# The capacities of growing containers

Whatever went before, a growing container has a capacity of the growth sequence that its elements fit into,
and every call changes it only as the policy says: growing to the least capacity that is large enough, and
shrinking when a removal finds few elements for the scale, or when told to. The journal tells how the capacity
came to be what it is.
-/

namespace RobinHood

open Growable

variable {K V : Type} [BEq K]

/-- The capacity is one of the growth sequence, and large enough for the elements. -/
structure Growable.Fitted {C α : Type} [Backing C α] (g : Growable C) : Prop where
  onSequence : Scale.OnSequence g.capacity
  size_le : g.size ≤ g.capacity

theorem Upkeep.Kept.fitted {C α : Type} [Backing C α] {U : Upkeep C α} {g : Growable C} (h : U.Kept g) : g.Fitted := by
  obtain ⟨m, hheld⟩ := h
  exact ⟨hheld.onSequence, hheld.size ▸ hheld.length_le⟩

theorem GrowSet.recorded_of_obeys {ε : Type} {call : Call K ε} {g t : GrowSet K} (h : Obeys call g t) :
    g.Recorded t := by
  cases call with
  | member call =>
    obtain ⟨_, -, heffect⟩ := h
    exact heffect.recorded
  | extend keys hint => exact Extends.recorded h
  | batch maximum stage => exact Provides.recorded h
  | reserve additional => exact h.2.recorded
  | shrinkToFit => exact Tightens.recorded h
  | reset => exact Resets.recorded h
  | clear => exact h.2.recorded

theorem GrowDict.recorded_of_obeys {ε R : Type} {call : Call K V ε R} {g t : GrowDict K V} (h : Obeys call g t) :
    g.Recorded t := by
  cases call with
  | entry call =>
    obtain ⟨_, -, heffect⟩ := h
    exact heffect.recorded
  | replace key value => exact h.2.recorded
  | replaceAt index value => exact h.2.recorded
  | editValues n edit => exact h.2.recorded
  | editEntries n edit => exact h.2.recorded
  | extend entries hint => exact Extends.recorded h
  | reserve additional => exact h.2.recorded
  | shrinkToFit => exact Tightens.recorded h
  | reset => exact Resets.recorded h
  | clear => exact h.2.recorded

/-- In every state and for every call: the container is fitted, the call obeys the policy, and what it records
tells of each change of the capacity, in words that give the two capacities and how many elements moved. A
container that takes over a storage moves what is in it only from a capacity that is not of the growth sequence. -/
theorem capacity_policy (hasher : Hasher K) :
    (∀ g : GrowSet K, AnySet.Reachable hasher (.growing g) → g.Fitted ∧
      ∀ {ε : Type} (call : GrowSet.Call K ε), GrowSet.Obeys call g ((GrowSet.carryOut call).runOn g).2 ∧
        g.Recorded ((GrowSet.carryOut call).runOn g).2) ∧
    (∀ g : GrowDict K V, AnyDict.Reachable hasher (.growing g) → g.Fitted ∧
      ∀ {ε R : Type} (call : GrowDict.Call K V ε R), GrowDict.Obeys call g ((GrowDict.carryOut call).runOn g).2 ∧
        g.Recorded ((GrowDict.carryOut call).runOn g).2) ∧
    (∀ (s : FixedSet K) (seeds : Seeds) (g : GrowSet K), AnySet.Reachable hasher (.fixed s) →
      GrowSet.ofFixed s seeds = .ok g → Adopts s seeds g) ∧
    (∀ (d : FixedDict K V) (seeds : Seeds) (g : GrowDict K V), AnyDict.Reachable hasher (.fixed d) →
      GrowDict.ofFixed d seeds = .ok g → Adopts d seeds g) ∧
    ∀ before after count,
      GrowSet.describe (.resized before after count) = "UniqueSet resized from " ++ toString before ++ " to " ++
        toString after ++ " (" ++ toString count ++ " members)" ∧
      GrowDict.describe (.resized before after count) = "UniqueDictionary resized from " ++ toString before ++
        " to " ++ toString after ++ " (" ++ toString count ++ " entries)" := by
  refine ⟨fun g hg => ?_, fun g hg => ?_, fun s seeds g hs hadopt => ?_, fun d seeds g hd hadopt => ?_,
    fun _ _ _ => ⟨rfl, rfl⟩⟩
  · have hkept : (FixedSet.steady hasher).Kept g := hg.steady
    refine ⟨hkept.fitted, fun call => ?_⟩
    have hobeys := (GrowSet.carryOut_safe hkept call).after.2
    exact ⟨hobeys, GrowSet.recorded_of_obeys hobeys⟩
  · have hkept : (FixedDict.steady hasher).Kept g := hg.keptBy _
    refine ⟨hkept.fitted, fun call => ?_⟩
    have hobeys := (GrowDict.carryOut_safe hkept call).after.2
    exact ⟨hobeys, GrowDict.recorded_of_obeys hobeys⟩
  · obtain ⟨c, m, hkeeps⟩ := hs.steady
    exact (((FixedSet.steady hasher).adopt_made hkeeps seeds).good g hadopt).2
  · obtain ⟨c, m, hkeeps⟩ := hd.keptBy (FixedDict.steady hasher)
    exact (((FixedDict.steady hasher).adopt_made hkeeps seeds).good g hadopt).2

/-- Three keys make a set grow to four; it shrinks when the last of them is removed. -/
theorem capacity_policy_last_removal : ∃ g t : GrowSet Nat,
    AnySet.Reachable (fun _ key => key.toUInt64) (.growing g) ∧ g.capacity = 4 ∧ g.size = 1 ∧
    t.capacity = 0 ∧ g.Fitted ∧ Effect g t true false ∧ g.Recorded t ∧
    t.journal = [.resized 0 1 0, .resized 1 2 1, .resized 2 4 2, .resized 4 0 0] := by
  have hnew : AnySet.Reachable (fun _ (key : Nat) => key.toUInt64) (.growing ⟨_, .constant 0, []⟩) :=
    .growing (rfl : GrowSet.vacant 0 _ _ = .ok _)
  have hone := hnew.callGrowing (.member (.insert 1) : GrowSet.Call Nat Empty)
  have htwo := hone.callGrowing (.member (.insert 2) : GrowSet.Call Nat Empty)
  have hthree := htwo.callGrowing (.member (.insert 3) : GrowSet.Call Nat Empty)
  have hless := hthree.callGrowing (.member (.remove 3) : GrowSet.Call Nat Empty)
  have hleast := hless.callGrowing (.member (.remove 2) : GrowSet.Call Nat Empty)
  obtain ⟨hfitted, hcall⟩ := (capacity_policy (V := Unit) _).1 _ hleast
  obtain ⟨hobeys, hrecorded⟩ := hcall (.member (.remove 1) : GrowSet.Call Nat Empty)
  obtain ⟨before, hcontains, heffect⟩ := hobeys
  obtain rfl : true = before := Except.ok.inj hcontains
  exact ⟨_, _, hleast, rfl, rfl, rfl, hfitted, heffect, hrecorded, rfl⟩

end RobinHood
