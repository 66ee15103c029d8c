import RobinHood.Proofs.Growable.Capacities
import RobinHood.Proofs.Growable.Room
import RobinHood.Proofs.Requests

/-!
# Conversions

A growing container is made of a fixed one by taking over its storage, and turns into a fixed one by giving it away.
Only a capacity that is not of the growth sequence makes the elements move. Whatever the fixed container has been
through, the growing one is like any other with its elements.
-/

namespace RobinHood

open RobinHood.Action

/-! ### Taking over -/

namespace Growable

variable {C α β ρ ι : Type} [Backing C α] {g t : Growable C}

/-- The storage was taken over with all its elements. They moved, which was recorded, exactly if its capacity is not of
the growth sequence; the capacity is the least one of the sequence that is not below it. -/
structure TakesOver (storage : C) (seeds : Seeds) (g : Growable C) : Prop where
  fits : Scale.Fits (Backing.table storage).capacity g.capacity
  sameElements : SameElements ⟨storage, seeds, []⟩ g
  adopts : Adopts storage seeds g

/-- Whatever is requested of the two, one request after the other, they answer alike and have the same elements. If they
have the same capacity, then they have it after each call as well. -/
structure Equivalent (respond : ρ → Growable C → Except Fault β × Growable C) (ofCall : ι → ρ) (g t : Growable C) :
    Prop where
  answers : ∀ requests, List.Forall₂ (Alike SameElements) (trace respond requests g) (trace respond requests t)
  capacities : g.capacity = t.capacity → ∀ calls, List.Forall₂ (Alike fun g' t' => g'.capacity = t'.capacity)
    (trace (fun call => respond (ofCall call)) calls g) (trace (fun call => respond (ofCall call)) calls t)

theorem Equivalent.of_related {respond : ρ → Growable C → Except Fault β × Growable C} {ofCall : ι → ρ}
    {Related : Growable C → Growable C → Prop} (hsimulates : Simulates Related respond respond)
    (helements : ∀ {g t}, Related g t → g.SameElements t)
    (hcapacity : ∀ {g t} (call : ι), Related g t → g.capacity = t.capacity →
      (respond (ofCall call) g).2.capacity = (respond (ofCall call) t).2.capacity)
    (hrelated : Related g t) : Equivalent respond ofCall g t where
  answers requests := (hsimulates.trace requests hrelated).imp fun _ _ h => ⟨h.1, helements h.2⟩
  capacities hsame calls := by
    have hpaced : Simulates (fun g t => Related g t ∧ g.capacity = t.capacity)
        (fun call => respond (ofCall call)) (fun call => respond (ofCall call)) := by
      rintro call g t ⟨hrelated, hsame⟩
      obtain ⟨hanswer, hafter⟩ := hsimulates (ofCall call) g t hrelated
      exact ⟨hanswer, hafter, hcapacity call hrelated hsame⟩
    exact (hpaced.trace calls ⟨hrelated, hsame⟩).imp fun _ _ h => ⟨h.1, h.2.2⟩

end Growable

namespace Upkeep

open Growable

variable {C α : Type} [Backing C α] {U U' : Upkeep C α} {c : Nat} {storage : C} {g t : Growable C} {m m' : List α}

/-- A storage of which the capacity is not too large is taken over, and whoever kept it keeps the container. -/
theorem exists_takesOver (h : U.Keeps c storage m) (hlimit : (Backing.table storage).capacity ≤ Scale.limit)
    (seeds : Seeds) : ∃ g, adopt storage seeds = .ok g ∧ g.TakesOver storage seeds ∧
      ∀ {U' : Upkeep C α} {c' : Nat} {m' : List α}, U'.Keeps c' storage m' → U'.Held g m' := by
  obtain ⟨g, hadopt, hheld, -⟩ := runOn_adopt h (U.capacity (U.stores h) ▸ hlimit) seeds
  have hadopts := ((U.adopt_made h seeds).good g hadopt).2
  obtain ⟨before, hbefore, hperm⟩ := U.elements (U.stores h)
  obtain ⟨after, hafter, hperm'⟩ := U.elements (U.stores hheld.keeps)
  refine ⟨g, hadopt, ⟨?_, ⟨before, after, hbefore, hafter, hperm'.trans hperm.symm⟩, hadopts⟩, ?_⟩
  · cases hadopts with
    | same hseq heq =>
      rw [heq]
      exact hseq.fits
    | moved _ hmoves => exact hmoves.fits
  · intro U' c' m' h'
    obtain ⟨g', hadopt', hheld', -⟩ := runOn_adopt h' (U'.capacity (U'.stores h') ▸ hlimit) seeds
    cases hadopt.symm.trans hadopt'
    exact hheld'

/-- What takes over the storage of a growing container is as this was, and has recorded nothing. -/
theorem Held.adopt_storage (h : U.Held g m) (seeds : Seeds) :
    adopt g.storage seeds = .ok { g with seeds, journal := [] } := by
  have hseq := h.onSequence
  obtain ⟨t, hadopt, -, ⟨-, rfl⟩ | ⟨hoff, -⟩⟩ := runOn_adopt h.keeps hseq.le_limit seeds
  · exact hadopt
  · exact absurd hseq hoff

/-- Containers with the same elements are kept with the same ones. -/
theorem Held.of_sameElements (h : U.Held g m) (h' : U'.Held t m') (hsame : g.SameElements t) : U'.Held t m := by
  obtain ⟨before, after, hbefore, hafter, hperm⟩ := hsame
  obtain ⟨listed, hlisted, hm⟩ := U.elements (U.stores h.keeps)
  obtain ⟨listed', hlisted', hm'⟩ := U'.elements (U'.stores h'.keeps)
  cases hbefore.symm.trans hlisted
  cases hafter.symm.trans hlisted'
  obtain ⟨c, hseq, hkeeps⟩ := h'
  exact ⟨c, hseq, U'.perm hkeeps (hm'.symm.trans (hperm.trans hm))⟩

end Upkeep

variable {K V ε R : Type} [BEq K] {hasher hasher' : Hasher K}

/-! ### Sets -/

namespace MemberCall

def request : MemberCall K → GrowSet.Request K
  | insert key => .plain (.insert key)
  | update key => .plain (.update key)
  | remove key => .plain (.remove key)

end MemberCall

namespace GrowSet

variable {g t : GrowSet K} {m : List K}

/-- Whatever is asked of the two sets, they go on alike. -/
abbrev Interchangeable (g t : GrowSet K) : Prop :=
  Growable.Equivalent respond MemberCall.request g t

theorem respond_request (call : MemberCall K) (g : GrowSet K) :
    (respond call.request g).2 = ((carryOut (.member call : Call K ε)).runOn g).2 := by
  cases call <;> simp only [MemberCall.request, respond, answer, carryOut, runOn_map] <;> rfl

variable [EquivBEq K]

theorem Keeps.capacity_respond (hg : Keeps hasher g m) (ht : Keeps hasher' t m) (hlawful : hasher.Lawful)
    (hlawful' : hasher'.Lawful) (hcapacity : g.capacity = t.capacity) (call : MemberCall K) :
    (respond call.request g).2.capacity = (respond call.request t).2.capacity := by
  have hheld : (FixedSet.lawful hlawful).Held g m := hg
  have hheld' : (FixedSet.lawful hlawful').Held t m := ht
  obtain ⟨before, hbefore, heffect⟩ := (carryOut_safe ⟨m, hheld⟩ (.member call : Call K Empty)).after.2
  obtain ⟨before', hbefore', heffect'⟩ := (carryOut_safe ⟨m, hheld'⟩ (.member call : Call K Empty)).after.2
  -- Searches find the key in both sets or in neither.
  cases hbefore.symm.trans (FixedSet.Keeps.contains hheld.keeps hlawful call.key)
  cases hbefore'.symm.trans (FixedSet.Keeps.contains hheld'.keeps hlawful' call.key)
  rw [respond_request (ε := Empty), respond_request (ε := Empty)]
  exact heffect.capacity_eq heffect' hheld.onSequence (hheld.size.trans hheld'.size.symm) hcapacity

theorem Keeps.interchangeable (hg : Keeps hasher g m) (ht : Keeps hasher' t m) (hlawful : hasher.Lawful)
    (hlawful' : hasher'.Lawful) : g.Interchangeable t := by
  refine .of_related ((simulates hlawful).compose (simulates hlawful')) ?_ ?_ ⟨m, hg, ht⟩
  · rintro g t ⟨m, hg, ht⟩
    exact (Growable.Keeps.held hg).sameElements (Growable.Keeps.held ht)
  · rintro g t call ⟨m, hg, ht⟩ hcapacity
    exact hg.capacity_respond ht hlawful hlawful' hcapacity call

/-- The growing set took over the fixed one, and is a set like any other: with lawful hashers, it finds what the fixed
one found, and whatever is asked of it is answered as by any growing set with the same members. -/
structure Continues (hasher : Hasher K) (s : FixedSet K) (seeds : Seeds) (g : GrowSet K) : Prop
    extends g.TakesOver s seeds where
  reachable : AnySet.Reachable hasher (.growing g)
  get? : hasher.Lawful → ∀ key, g.storage.get? key = s.get? key
  interchangeable : hasher.Lawful → ∀ {hasher' : Hasher K} {t : GrowSet K}, hasher'.Lawful →
    AnySet.Reachable hasher' (.growing t) → g.SameElements t → g.Interchangeable t

theorem exists_continues {s : FixedSet K} (hs : AnySet.Reachable hasher (.fixed s)) (seeds : Seeds) :
    ∃ g, ofFixed s seeds = .ok g ∧ g.Continues hasher s seeds := by
  obtain ⟨c, m, hsteady⟩ := hs.steady
  have hlimit : s.table.capacity ≤ Scale.limit := hsteady.inStep.shaped.capacity_le_limit
  obtain ⟨g, hadopt, htakes, hheld⟩ := Upkeep.exists_takesOver hsteady hlimit seeds
  refine ⟨g, hadopt, htakes, hs.adopt hadopt, fun hlawful key => ?_, fun hlawful hasher' t hlawful' ht hsame => ?_⟩
  · obtain ⟨c, m, hkeeps⟩ := hs.lawful hlawful
    obtain ⟨c', -, hkeeps'⟩ := hheld hkeeps
    rw [FixedSet.Keeps.get? hkeeps' hlawful, FixedSet.Keeps.get? hkeeps hlawful]
  · obtain ⟨c, m, hkeeps⟩ := hs.lawful hlawful
    obtain ⟨m', ht⟩ := ht.lawful hlawful'
    exact Keeps.interchangeable (hheld hkeeps) ((hheld hkeeps).of_sameElements ht hsame) hlawful hlawful'

end GrowSet

/-! ### Dictionaries -/

namespace EntryCall

def request : EntryCall K V ε R → GrowDict.Request K V ε R
  | insert key value => .plain (.insert key value)
  | update key value => .plain (.update key value)
  | memoize key compute => .plain (.memoize key fun key => unlessAborted (compute key))
  | tryMemoize key compute => .plain (.tryMemoize key fun key => unlessAborted (compute key))
  | edit key f => .plain (.edit key fun held => edited (f held))
  | remove key => .plain (.remove key)
  | removeEntry key => .plain (.removeEntry key)

end EntryCall

namespace GrowDict

variable {g t : GrowDict K V} {m : List (K × V)}

def Interchangeable (g t : GrowDict K V) : Prop :=
  ∀ {ε R : Type}, Growable.Equivalent respond (EntryCall.request (ε := ε) (R := R)) g t

theorem respond_request (call : EntryCall K V ε R) (g : GrowDict K V) :
    (respond call.request g).2 = ((carryOut (.entry call)).runOn g).2 := by
  cases call <;> simp only [EntryCall.request, respond, answer, carryOut, runOn_map] <;> rfl

variable [EquivBEq K]

theorem Keeps.capacity_respond (hg : Keeps hasher g m) (ht : Keeps hasher' t m) (hlawful : hasher.Lawful)
    (hlawful' : hasher'.Lawful) (hcapacity : g.capacity = t.capacity) (call : EntryCall K V ε R) :
    (respond call.request g).2.capacity = (respond call.request t).2.capacity := by
  have hheld : (FixedDict.lawful hlawful).Held g m := hg
  have hheld' : (FixedDict.lawful hlawful').Held t m := ht
  obtain ⟨held, hget, heffect⟩ := (carryOut_safe ⟨m, hheld⟩ (.entry call)).after.2
  obtain ⟨held', hget', heffect'⟩ := (carryOut_safe ⟨m, hheld'⟩ (.entry call)).after.2
  cases hget.symm.trans (FixedDict.Keeps.get? hheld.keeps hlawful call.key)
  cases hget'.symm.trans (FixedDict.Keeps.get? hheld'.keeps hlawful' call.key)
  rw [respond_request, respond_request]
  exact heffect.capacity_eq heffect' hheld.onSequence (hheld.size.trans hheld'.size.symm) hcapacity

theorem Keeps.interchangeable (hg : Keeps hasher g m) (ht : Keeps hasher' t m) (hlawful : hasher.Lawful)
    (hlawful' : hasher'.Lawful) : g.Interchangeable t := by
  refine .of_related ((simulates hlawful).compose (simulates hlawful')) ?_ ?_ ⟨m, hg, ht⟩
  · rintro g t ⟨m, hg, ht⟩
    exact (Growable.Keeps.held hg).sameElements (Growable.Keeps.held ht)
  · rintro g t call ⟨m, hg, ht⟩ hcapacity
    exact hg.capacity_respond ht hlawful hlawful' hcapacity call

/-- The growing dictionary took over the fixed one, and is a dictionary like any other: with lawful hashers, it finds
what the fixed one found, and whatever is asked of it is answered as by any growing dictionary with the same entries. -/
structure Continues (hasher : Hasher K) (d : FixedDict K V) (seeds : Seeds) (g : GrowDict K V) : Prop
    extends g.TakesOver d seeds where
  reachable : AnyDict.Reachable hasher (.growing g)
  get? : hasher.Lawful → ∀ key, g.storage.get? key = d.get? key
  interchangeable : hasher.Lawful → ∀ {hasher' : Hasher K} {t : GrowDict K V}, hasher'.Lawful →
    AnyDict.Reachable hasher' (.growing t) → g.SameElements t → g.Interchangeable t

theorem exists_continues {d : FixedDict K V} (hd : AnyDict.Reachable hasher (.fixed d)) (seeds : Seeds) :
    ∃ g, ofFixed d seeds = .ok g ∧ g.Continues hasher d seeds := by
  obtain ⟨c, m, hsteady⟩ := hd.keptBy (FixedDict.steady hasher)
  have hlimit : d.table.capacity ≤ Scale.limit := hsteady.keys.inStep.shaped.capacity_le_limit
  obtain ⟨g, hadopt, htakes, hheld⟩ := Upkeep.exists_takesOver hsteady hlimit seeds
  refine ⟨g, hadopt, htakes, hd.adopt hadopt, fun hlawful key => ?_, fun hlawful hasher' t hlawful' ht hsame => ?_⟩
  · obtain ⟨c, m, hkeeps⟩ := hd.keptBy (FixedDict.lawful hlawful)
    obtain ⟨c', -, hkeeps'⟩ := hheld hkeeps
    rw [FixedDict.Keeps.get? hkeeps' hlawful, FixedDict.Keeps.get? hkeeps hlawful]
  · obtain ⟨c, m, hkeeps⟩ := hd.keptBy (FixedDict.lawful hlawful)
    obtain ⟨m', ht⟩ := ht.keptBy (FixedDict.lawful hlawful')
    exact Keeps.interchangeable (hheld hkeeps) ((hheld hkeeps).of_sameElements ht hsame) hlawful hlawful'

end GrowDict

/-! ### Back and forth -/

variable [EquivBEq K]

/-- Every fixed container can be turned into a growing one, with the same elements and the least capacity of the growth
sequence that is not below its own; what is asked of it afterwards is answered as by any other with these elements. The
storage that a growing container gives away is its own, and taking it over makes the same container again. -/
theorem conversions_keep_contents (hasher : Hasher K) :
    (∀ (s : FixedSet K) (seeds : Seeds), AnySet.Reachable hasher (.fixed s) →
      ∃ g, GrowSet.ofFixed s seeds = .ok g ∧ g.Continues hasher s seeds) ∧
    (∀ (d : FixedDict K V) (seeds : Seeds), AnyDict.Reachable hasher (.fixed d) →
      ∃ g, GrowDict.ofFixed d seeds = .ok g ∧ g.Continues hasher d seeds) ∧
    (∀ (g : GrowSet K) (seeds : Seeds), AnySet.Reachable hasher (.growing g) →
      g.toFixed = g.storage ∧ GrowSet.ofFixed g.toFixed seeds = .ok { g with seeds, journal := [] }) ∧
    ∀ (g : GrowDict K V) (seeds : Seeds), AnyDict.Reachable hasher (.growing g) →
      g.toFixed = g.storage ∧ GrowDict.ofFixed g.toFixed seeds = .ok { g with seeds, journal := [] } := by
  refine ⟨fun s seeds hs => GrowSet.exists_continues hs seeds, fun d seeds hd => GrowDict.exists_continues hd seeds,
    fun g seeds hg => ⟨rfl, ?_⟩, fun g seeds hg => ⟨rfl, ?_⟩⟩
  · obtain ⟨m, hheld⟩ := hg.steady
    exact hheld.adopt_storage seeds
  · obtain ⟨m, hheld⟩ := hg.keptBy (FixedDict.steady hasher)
    exact hheld.adopt_storage seeds

/-- A dense set of capacity fifteen becomes a probed one of twenty-eight. That goes on as a dense set does into which
its members were inserted in another order, and it is the same after it was turned into a fixed set and back. -/
theorem conversions_keep_contents_of_dense : ∃ (s : FixedSet Nat) (g t : GrowSet Nat),
    AnySet.Reachable (fun _ key => key.toUInt64) (.fixed s) ∧ s.capacity = 15 ∧ s.table.isDense = true ∧
    GrowSet.ofFixed s (.constant 9) = .ok g ∧ g.capacity = 28 ∧ g.table.isDense = false ∧
    g.journal = [.resized 15 28 2] ∧ AnySet.Reachable (fun _ _ => 7) (.growing t) ∧ t.capacity = 2 ∧
    g.Interchangeable t ∧
    GrowSet.ofFixed g.toFixed (.constant 5) = .ok { g with seeds := .constant 5, journal := [] } := by
  have hlawful : Hasher.Lawful (fun _ (key : Nat) => key.toUInt64) := fun _ a b hab => by rw [beq_iff_eq.mp hab]
  have hlawful' : Hasher.Lawful (fun _ (_ : Nat) => 7) := fun _ _ _ _ => rfl
  have hnew : AnySet.Reachable (fun _ (key : Nat) => key.toUInt64) (.fixed ⟨_, _⟩) :=
    .fixed (rfl : FixedSet.vacant 15 _ 0 = .ok _)
  have htwo := (hnew.callFixed (.member (.insert 3) : FixedSet.Call Nat Empty)).callFixed
    (.member (.insert 5) : FixedSet.Call Nat Empty)
  have hnew' : AnySet.Reachable (fun _ (_ : Nat) => 7) (.growing ⟨_, .constant 0, []⟩) :=
    .growing (rfl : GrowSet.vacant 0 _ _ = .ok _)
  have htwo' := (hnew'.callGrowing (.member (.insert 5) : GrowSet.Call Nat Empty)).callGrowing
    (.member (.insert 3) : GrowSet.Call Nat Empty)
  obtain ⟨s, hs, hcapacity, hdense, hmade⟩ : ∃ s : FixedSet Nat,
      AnySet.Reachable (fun _ key => key.toUInt64) (.fixed s) ∧ s.capacity = 15 ∧ s.table.isDense = true ∧
      (GrowSet.ofFixed s (.constant 9)).map
        (fun g => (g.capacity, g.table.isDense, g.journal, Backing.elements g.storage)) =
          .ok (28, false, [.resized 15 28 2], .ok [3, 5]) :=
    ⟨_, htwo, by decide +kernel, by decide +kernel, by decide +kernel⟩
  obtain ⟨t, ht, hcapacity', hlisted'⟩ : ∃ t : GrowSet Nat, AnySet.Reachable (fun _ _ => 7) (.growing t) ∧
      t.capacity = 2 ∧ Backing.elements t.storage = .ok [5, 3] :=
    ⟨_, htwo', by decide +kernel, by decide +kernel⟩
  have hconversions := conversions_keep_contents (V := Unit) fun _ (key : Nat) => key.toUInt64
  obtain ⟨g, hadopt, hcontinues⟩ := hconversions.1 s (.constant 9) hs
  rw [hadopt] at hmade
  obtain ⟨hlarge, hprobed, hjournal, hlisted⟩ : _ ∧ _ ∧ _ ∧ _ := by simpa only [Prod.mk.injEq] using Except.ok.inj hmade
  have hsame : g.SameElements t := ⟨_, _, hlisted, hlisted', .swap 3 5 []⟩
  exact ⟨s, g, t, hs, hcapacity, hdense, hadopt, hlarge, hprobed, hjournal, ht, hcapacity',
    hcontinues.interchangeable hlawful hlawful' ht hsame, (hconversions.2.2.1 g _ hcontinues.reachable).2⟩

end RobinHood
