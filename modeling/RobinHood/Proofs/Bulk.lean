import RobinHood.Item.AffineHash
import RobinHood.Proofs.Ledger.Bulk
import RobinHood.Proofs.Reachable

/-!
# Containers made in bulk

Room for as many items as an iterator announces is made at once, and the items are then inserted one by one. Whatever
is announced, the contents are those of the single insertions, and the capacity is the least one that is large enough
for what there was, for what was announced and for what came.
-/

namespace RobinHood

open RobinHood.Action

variable {C α K V ι β : Type}

def completed {σ : Type} (step : Except Fault Unit × σ) : Except Fault σ :=
  step.1.map fun _ => step.2

namespace Growable

section Capacity

variable [Backing C α] {g t : Growable C} {required count : Nat}

/-- Making room leads from a capacity that fits to one that fits. -/
theorem MakesRoom.fits {r : Nat} (h : MakesRoom required count g t) (hfits : Scale.Fits r g.capacity) :
    Scale.Fits (max r required) t.capacity := by
  cases h with
  | stays hroom hstays =>
    rw [hstays.capacity]
    exact hfits.raise (Nat.le_max_left ..) (Nat.max_le.mpr ⟨hfits.le, hroom⟩)
  | moves hfull hmoves =>
    rw [Nat.max_eq_right (Nat.le_trans hfits.le (Nat.le_of_lt hfull))]
    exact hmoves.fits

/-- Adding elements one after the other leads to the least capacity that is large enough for them, if it was the
least one before. -/
theorem Climbs.fits {r : Nat} (h : Climbs g t) (hfits : Scale.Fits (max r g.size) g.capacity) :
    Scale.Fits (max r t.size) t.capacity := by
  induction h with
  | refl => exact hfits
  | @step u t before _ heffect ih =>
    cases heffect with
    | kept hsize hstays => rwa [hsize, hstays.capacity]
    | refused _ hsize hstays => rwa [hsize, hstays.capacity]
    | added hsize hroom =>
      have hgrown := hroom.fits ih
      rwa [Nat.max_assoc, Nat.max_eq_right (Nat.le_add_right u.size 1), ← hsize] at hgrown

theorem Extends.fits {hint : Nat} (h : Extends hint g t) (hseq : Scale.OnSequence g.capacity)
    (hsize : g.size ≤ g.capacity) (hroom : g.size + hint ≤ Scale.limit) :
    Scale.Fits (max (max g.capacity (g.size + hint)) t.size) t.capacity := by
  obtain ⟨u, hsame, hprovides, hclimbs⟩ := h
  cases hprovides with
  | refused hover => exact absurd hroom (Nat.not_le.mpr hover)
  | made hmade =>
    have hfits := hmade.fits hseq.fits
    apply hclimbs.fits
    rwa [hsame, Nat.max_eq_left (Nat.le_trans hsize (Nat.le_max_left ..))]

end Capacity

variable [Backing C α] [BEq K] [LawfulBacking C α K]

/-- The container has the contents, of which no two have equal keys, in the least capacity that is at least `room` and
large enough for them. -/
structure Gathers (t : Growable C) (contents : List α) (room : Nat) : Prop where
  distinct : Ledger.Distinct (LawfulBacking.keyOf C) contents
  listed : ∃ listed, Backing.elements t.storage = .ok listed ∧ listed.Perm contents
  fits : Scale.Fits (max room contents.length) t.capacity

/-- A container that gathers the contents was made, or there are too many for any capacity. -/
inductive Collects (contents : List α) (room : Nat) : Except Fault (Growable C) → Prop
  | done {t : Growable C} (h : t.Gathers contents room) : Collects contents room (.ok t)
  | refused (h : Scale.limit < contents.length) : Collects contents room (.error .capacityOverflow)

variable [EquivBEq K] {hasher : Hasher K} {g t : Growable C} {m : List α} {hint : Nat}

theorem Keeps.gathers {contents : List α} (h : Keeps hasher g m) (ht : Keeps hasher t contents)
    (hext : Extends hint g t) (hroom : g.size + hint ≤ Scale.limit) :
    t.Gathers contents (max g.capacity (g.size + hint)) := by
  obtain ⟨c, hseq, hkeeps⟩ := id ht
  have hstores := LawfulBacking.stores hkeeps
  refine ⟨LawfulBacking.distinct hstores, LawfulBacking.elements hstores, ?_⟩
  rw [← ht.size]
  exact hext.fits h.held.onSequence (h.size ▸ h.held.length_le) hroom

/-- What a ledger makes of the items one by one is what the container has in the end. -/
theorem Keeps.collects {absorb : List α → ι → List α} {step : ι → List α → Except Fault β × List α} {items : List ι}
    {ended : Except Fault Unit × Growable C} (h : Keeps hasher g m) (habsorbs : Ledger.Absorbs room absorb step)
    (hroom : g.size + hint ≤ Scale.limit) (hext : Extends hint g ended.2)
    (halike : Alike (Keeps hasher) ended (andThen (Ledger.reserve room hint m) fun _ => each step items)) :
    Collects (items.foldl absorb m) (max g.capacity (g.size + hint)) (completed ended) := by
  obtain ⟨outcome, t⟩ := ended
  have hlength : m.length + hint ≤ room.limit := by rwa [← h.size]
  rw [Ledger.reserve, if_pos hlength, andThen] at halike
  obtain ⟨houtcome, hkeeps⟩ := halike
  by_cases hfits : (items.foldl absorb m).length ≤ room.limit
  · rw [habsorbs.each_of_le items m hfits] at houtcome hkeeps
    obtain rfl : outcome = .ok () := houtcome
    exact .done (h.gathers hkeeps hext hroom)
  · rw [habsorbs.each_of_lt items m (by omega) (Nat.not_le.mp hfits)] at houtcome
    obtain rfl : outcome = .error .capacityOverflow := houtcome
    exact .refused (Nat.not_le.mp hfits)

end Growable

/-- The elements are a ledger themselves. -/
theorem Upkeep.Held.listed [Backing C α] {U : Upkeep C α} {g : Growable C} {m : List α} (h : U.Held g m) :
    ∃ listed, Backing.elements g.storage = .ok listed ∧ U.Held g listed := by
  obtain ⟨listed, hlisted, hperm⟩ := U.elements (U.stores h.keeps)
  exact ⟨listed, hlisted, _, h.onSequence, U.perm h.keeps hperm.symm⟩

theorem Growable.runOn_reserve_zero [Backing C α] (g : Growable C) : (Growable.reserve 0).runOn g = (.ok (), g) := by
  rw [Growable.reserve, runOn_bind_ok (Upkeep.runOn_ensureFree_of_room (Nat.zero_le _))]
  rfl

variable [BEq K] [EquivBEq K] {hasher : Hasher K}

/-! ### Sets -/

namespace GrowSet

variable {g : GrowSet K} {m : List K}

theorem Keeps.collects (h : Keeps hasher g m) (hlawful : hasher.Lawful) (keys : List K) (hint : Nat)
    (hroom : g.size + hint ≤ Scale.limit) :
    Growable.Collects (keys.foldl Ledger.offer m) (max g.capacity (g.size + hint))
      (completed ((GrowSet.extend keys hint).runOn g)) :=
  Growable.Keeps.collects h (Ledger.absorbs_offer Growable.room) hroom
    (Upkeep.extend_safe (U := FixedSet.lawful hlawful) ⟨m, h⟩ keys hint).after.2 (h.extend hlawful keys hint)

theorem Keeps.collects_singly (h : Keeps hasher g m) (hlawful : hasher.Lawful) (keys : List K) :
    Growable.Collects (keys.foldl Ledger.offer m) g.capacity
      (completed (ActionT.runOn (keys.forM fun key => do let _ ← GrowSet.insert key) g)) := by
  have hsize : g.size ≤ g.capacity := h.size ▸ h.held.length_le
  have hcollects := h.collects hlawful keys 0 (Nat.le_trans hsize h.held.onSequence.le_limit)
  rw [GrowSet.extend, runOn_bind_ok (Growable.runOn_reserve_zero g)] at hcollects
  rwa [Nat.add_zero, Nat.max_eq_left hsize] at hcollects

theorem ofList_collects (hlawful : hasher.Lawful) (seeds : Seeds) (keys : List K) {hint : Nat}
    (hroom : hint ≤ Scale.limit) :
    Growable.Collects (keys.foldl Ledger.offer []) hint (GrowSet.ofList hasher seeds keys hint) := by
  obtain ⟨g, hvacant, hcapacity⟩ : ∃ g : GrowSet K, vacant 0 hasher seeds = .ok g ∧ g.capacity = 0 := ⟨_, rfl, rfl⟩
  have hkeeps := keeps_nil hvacant
  have hsize : g.size = 0 := hkeeps.size
  have hcollects := hkeeps.collects hlawful keys hint (by omega)
  rw [hcapacity, hsize, Nat.zero_add, Nat.zero_max] at hcollects
  have hmade : GrowSet.ofList hasher seeds keys hint = completed ((GrowSet.extend keys hint).runOn g) := by
    simp only [GrowSet.ofList, hvacant, bind, Except.bind]
    obtain ⟨outcome, t⟩ := (GrowSet.extend keys hint).runOn g
    cases outcome <;> rfl
  rwa [hmade]

end GrowSet

/-! ### Dictionaries -/

namespace GrowDict

variable {g : GrowDict K V} {m : List (K × V)}

theorem Keeps.collects (h : Keeps hasher g m) (hlawful : hasher.Lawful) (entries : List (K × V)) (hint : Nat)
    (hroom : g.size + hint ≤ Scale.limit) :
    Growable.Collects (entries.foldl Ledger.put m) (max g.capacity (g.size + hint))
      (completed ((GrowDict.extend entries hint).runOn g)) :=
  Growable.Keeps.collects h (Ledger.absorbs_put Growable.room) hroom
    (Upkeep.extend_safe (U := FixedDict.lawful hlawful) ⟨m, h⟩ entries hint).after.2 (h.extend hlawful entries hint)

theorem Keeps.collects_singly (h : Keeps hasher g m) (hlawful : hasher.Lawful) (entries : List (K × V)) :
    Growable.Collects (entries.foldl Ledger.put m) g.capacity
      (completed (ActionT.runOn (entries.forM fun (key, value) => do let _ ← GrowDict.update key value) g)) := by
  have hsize : g.size ≤ g.capacity := h.size ▸ h.held.length_le
  have hcollects := h.collects hlawful entries 0 (Nat.le_trans hsize h.held.onSequence.le_limit)
  rw [GrowDict.extend, runOn_bind_ok (Growable.runOn_reserve_zero g)] at hcollects
  rwa [Nat.add_zero, Nat.max_eq_left hsize] at hcollects

theorem ofList_collects (hlawful : hasher.Lawful) (seeds : Seeds) (entries : List (K × V)) {hint : Nat}
    (hroom : hint ≤ Scale.limit) :
    Growable.Collects (entries.foldl Ledger.put []) hint (GrowDict.ofList hasher seeds entries hint) := by
  obtain ⟨g, hvacant, hcapacity⟩ : ∃ g : GrowDict K V, vacant 0 hasher seeds = .ok g ∧ g.capacity = 0 := ⟨_, rfl, rfl⟩
  have hkeeps := keeps_nil hvacant
  have hsize : g.size = 0 := hkeeps.size
  have hcollects := hkeeps.collects hlawful entries hint (by omega)
  rw [hcapacity, hsize, Nat.zero_add, Nat.zero_max] at hcollects
  have hmade : GrowDict.ofList hasher seeds entries hint = completed ((GrowDict.extend entries hint).runOn g) := by
    simp only [GrowDict.ofList, hvacant, bind, Except.bind]
    obtain ⟨outcome, t⟩ := (GrowDict.extend entries hint).runOn g
    cases outcome <;> rfl
  rwa [hmade]

end GrowDict

/-- What sets and dictionaries in any state make of any items, with any announcement of which there could be room, and
what is made of the items alone. The contents do not depend on the announcement: they are those of single insertions,
the first of equal keys and, in a dictionary, the last value. -/
theorem bulk_construction (hlawful : hasher.Lawful) :
    (∀ g : GrowSet K, AnySet.Reachable hasher (.growing g) → ∃ m, Backing.elements g.storage = .ok m ∧
      ∀ keys : List K,
        (∀ hint, g.size + hint ≤ Scale.limit → Growable.Collects (keys.foldl Ledger.offer m)
          (max g.capacity (g.size + hint)) (completed ((GrowSet.extend keys hint).runOn g))) ∧
        Growable.Collects (keys.foldl Ledger.offer m) g.capacity
          (completed (ActionT.runOn (keys.forM fun key => do let _ ← GrowSet.insert key) g)) ∧
        ∀ key, Ledger.member (keys.foldl Ledger.offer m) key = Ledger.member (m ++ keys) key) ∧
    (∀ g : GrowDict K V, AnyDict.Reachable hasher (.growing g) → ∃ m, Backing.elements g.storage = .ok m ∧
      ∀ entries : List (K × V),
        (∀ hint, g.size + hint ≤ Scale.limit → Growable.Collects (entries.foldl Ledger.put m)
          (max g.capacity (g.size + hint)) (completed ((GrowDict.extend entries hint).runOn g))) ∧
        Growable.Collects (entries.foldl Ledger.put m) g.capacity
          (completed (ActionT.runOn (entries.forM fun (key, value) => do let _ ← GrowDict.update key value) g)) ∧
        ∀ key,
          (Ledger.lookup Prod.fst (entries.foldl Ledger.put m) key).map Prod.fst =
            (Ledger.lookup Prod.fst (m ++ entries) key).map Prod.fst ∧
          (Ledger.lookup Prod.fst (entries.foldl Ledger.put m) key).map Prod.snd =
            ((Ledger.lookup Prod.fst entries.reverse key).or (Ledger.lookup Prod.fst m key)).map Prod.snd) ∧
    (∀ (seeds : Seeds) (keys : List K) (hint : Nat), hint ≤ Scale.limit →
      Growable.Collects (keys.foldl Ledger.offer []) hint (GrowSet.ofList hasher seeds keys hint)) ∧
    ∀ (seeds : Seeds) (entries : List (K × V)) (hint : Nat), hint ≤ Scale.limit →
      Growable.Collects (entries.foldl Ledger.put []) hint (GrowDict.ofList hasher seeds entries hint) := by
  refine ⟨fun g hg => ?_, fun g hg => ?_, fun seeds keys hint hroom => GrowSet.ofList_collects hlawful seeds keys hroom,
    fun seeds entries hint hroom => GrowDict.ofList_collects hlawful seeds entries hroom⟩
  · obtain ⟨m, hheld⟩ : (FixedSet.lawful hlawful).Kept g := hg.lawful hlawful
    obtain ⟨listed, hlisted, hkeeps⟩ := hheld.listed
    exact ⟨listed, hlisted, fun keys => ⟨GrowSet.Keeps.collects hkeeps hlawful keys,
      GrowSet.Keeps.collects_singly hkeeps hlawful keys, Ledger.member_offers keys listed⟩⟩
  · obtain ⟨m, hheld⟩ : (FixedDict.lawful hlawful).Kept g := hg.keptBy (FixedDict.lawful hlawful)
    obtain ⟨listed, hlisted, hkeeps⟩ := hheld.listed
    exact ⟨listed, hlisted, fun entries => ⟨GrowDict.Keeps.collects hkeeps hlawful entries,
      GrowDict.Keeps.collects_singly hkeeps hlawful entries,
      fun key => ⟨Ledger.key_puts entries listed key, Ledger.value_puts entries listed key⟩⟩⟩

/-- Five entries are announced to a dictionary with one, and three come, one of them under a key that it has and two
under equal ones. The keys with the tags 0 and 1 stay, with the values that came last, in a capacity for six. -/
theorem bulk_construction_announced : ∃ g t : GrowDict Key String,
    Hasher.Lawful AffineHash.identity.hasher ∧ AnyDict.Reachable AffineHash.identity.hasher (.growing g) ∧
    (GrowDict.extend [(⟨.number 2, 1⟩, "b"), (⟨.number 1, 5⟩, "c"), (⟨.number 2, 9⟩, "d")] 5).runOn g = (.ok (), t) ∧
    g.capacity = 1 ∧ t.capacity = 7 ∧ t.Gathers [(⟨.number 2, 1⟩, "d"), (⟨.number 1, 0⟩, "c")] (max 1 (1 + 5)) := by
  have hlawful : Hasher.Lawful AffineHash.identity.hasher := fun _ _ _ hab =>
    congrArg (fun ident : Ident => AffineHash.identity.apply ident.base) (of_decide_eq_true hab)
  have hnew : AnyDict.Reachable (V := String) AffineHash.identity.hasher (.growing ⟨_, .constant 0, []⟩) :=
    .growing (rfl : GrowDict.vacant 0 _ _ = .ok _)
  have hone := hnew.callGrowing (.entry (.insert ⟨.number 1, 0⟩ "a") : GrowDict.Call Key String Empty Empty)
  obtain ⟨m, hlisted, hbulk⟩ := (bulk_construction hlawful).2.1 _ hone
  obtain rfl : [(⟨.number 1, 0⟩, "a")] = m := Except.ok.inj hlisted
  have hcollects := (hbulk [(⟨.number 2, 1⟩, "b"), (⟨.number 1, 5⟩, "c"), (⟨.number 2, 9⟩, "d")]).1 5 (by decide)
  cases hcollects with
  | done h => exact ⟨_, _, hlawful, hone, rfl, rfl, rfl, h⟩

end RobinHood
