import RobinHood.Proofs.Aftermath
import RobinHood.Proofs.Settings
import RobinHood.Proofs.Traversals

/-!
# Emptied containers

Once its last element is gone, a fixed container equals the one that is made with its capacity, its hasher and its seed.
No bit of the bitmap, no slot and no value tells of what was done before, so nothing that is done later can depend on
it.
-/

namespace RobinHood

open RobinHood.Action RobinHood.Ledger

variable {K V ε R : Type}

/-! ### Fixed sets -/

namespace FixedSet

variable {s t fresh : FixedSet K}

theorem vacant_eq (h : s.toSeating.InStep) (hsize : s.size = 0) :
    vacant s.capacity s.hasher s.table.seed = .ok s := by
  rw [vacant, capacity, h.vacant_eq hsize]
  rfl

/-- An empty set is the one that is made with the same settings. -/
theorem eq_of_vacant (ht : t.toSeating.InStep) (hsize : t.size = 0) (hsettings : t.settings = s.settings)
    (hmade : vacant s.capacity s.hasher s.table.seed = .ok fresh) : t = fresh := by
  obtain ⟨hcapacity, hrest⟩ := Prod.mk.inj hsettings
  obtain ⟨hhasher, hseed⟩ := Prod.mk.inj hrest
  have hvacant := vacant_eq ht hsize
  rw [hcapacity, hhasher, hseed] at hvacant
  exact Except.ok.inj (hvacant.symm.trans hmade)

variable [BEq K] {hasher : Hasher K}

theorem afterAll_eq_of_vacant (hs : AnySet.Reachable hasher (.fixed s))
    (hmade : vacant s.capacity s.hasher s.table.seed = .ok fresh) (calls : List (Call K ε))
    (hsize : (afterAll carryOut s calls).size = 0) : afterAll carryOut s calls = fresh := by
  obtain ⟨hreachable, hsettings⟩ := afterAll_keeps
    (P := fun t => AnySet.Reachable hasher (.fixed t) ∧ t.settings = s.settings)
    (fun call t ht => ⟨ht.1.callFixed call, (carryOut_spares call t).trans ht.2⟩) calls ⟨hs, rfl⟩
  exact eq_of_vacant hreachable.inStep hsize hsettings hmade

theorem Keeps.after_remove [EquivBEq K] {c : Nat} {m : List K} (h : Keeps hasher c s m) (hlawful : hasher.Lawful)
    (key : K) : Keeps hasher c ((carryOut (.member (.remove key) : Call K ε)).runOn s).2 (strike id m key) := by
  rw [carryOut, runOn_map]
  exact (h.remove hlawful key).2

theorem Keeps.size_after_removals [EquivBEq K] {c : Nat} {m keys : List K} (h : Keeps hasher c s m)
    (hlawful : hasher.Lawful) (hcover : ∀ key, s.contains key = .ok true → ∃ k ∈ keys, (key == k) = true) :
    (afterAll carryOut s (keys.map fun key => (.member (.remove key) : Call K ε))).size = 0 := by
  have hstep : ∀ key ∈ keys, ∀ t m, Keeps hasher c t m →
      Keeps hasher c ((carryOut (.member (.remove key) : Call K ε)).runOn t).2 (strike id m key) :=
    fun key _ _ _ h => h.after_remove hlawful key
  have hafter := afterAll_follows keys hstep h
  have hnil : keys.foldl (strike id) m = [] := by
    refine foldl_strike_eq_nil fun x hx => hcover x ?_
    rw [h.contains hlawful x, member_of_mem hx]
  rw [hnil] at hafter
  exact hafter.seating.count

/-- What is made with the settings of the set is `fresh`, and the set is that whenever it is empty: after any calls that
leave it so, after clearing, and after all members were removed one by one, in whatever order. -/
structure EmptiesTo (hasher : Hasher K) (s fresh : FixedSet K) : Prop where
  made : vacant s.capacity s.hasher s.table.seed = .ok fresh
  calls : ∀ {ε : Type} (calls : List (Call K ε)), (afterAll carryOut s calls).size = 0 →
    afterAll carryOut s calls = fresh
  removeAll : FixedSet.removeAll.runOn s = (.ok (), fresh)
  remove : ∀ [EquivBEq K], hasher.Lawful → ∀ {ε : Type} (keys : List K),
    (∀ key, s.contains key = .ok true → ∃ k ∈ keys, (key == k) = true) →
    afterAll carryOut s (keys.map fun key => (.member (.remove key) : Call K ε)) = fresh

theorem exists_emptiesTo (hs : AnySet.Reachable hasher (.fixed s)) : ∃ fresh, s.EmptiesTo hasher fresh := by
  obtain ⟨fresh, hmade, -⟩ := exists_keeps_nil s.hasher s.table.seed hs.inStep.shaped.capacity_le_limit
  refine ⟨fresh, hmade, fun calls hsize => afterAll_eq_of_vacant hs hmade calls hsize, ?_, ?_⟩
  · obtain ⟨c, m, hsteady⟩ := hs.steady
    obtain ⟨m', hkeeps, hnil⟩ := (Upkeep.removeAll_safe hsteady).after
    have hcount : (FixedSet.removeAll.runOn s).2.size = 0 := (Steady.count hkeeps).trans hnil
    have hafter : (FixedSet.removeAll.runOn s).2 = fresh :=
      afterAll_eq_of_vacant hs hmade [(.removeAll : Call K Empty)] hcount
    exact congrArg (Prod.mk (Except.ok ())) hafter
  · intro _ hlawful ε keys hcover
    obtain ⟨c, m, hkeeps⟩ : ∃ c m, Keeps hasher c s m := hs.lawful hlawful
    exact afterAll_eq_of_vacant hs hmade _ (hkeeps.size_after_removals hlawful hcover)

end FixedSet

/-! ### Fixed dictionaries -/

namespace FixedDict

variable [BEq K] {hasher : Hasher K} {d t fresh : FixedDict K V}

theorem vacant_eq (h : AnyDict.Reachable hasher (.fixed d)) (hsize : d.size = 0) :
    vacant d.capacity d.keys.hasher d.table.seed = .ok d := by
  obtain ⟨s, rfl, hstep⟩ : ∃ s, d = ofEntries hasher s ∧ s.InStep := h.entries
  rw [vacant_eq_map]
  exact congrArg (ofEntries hasher <$> ·) (hstep.vacant_eq hsize)

theorem eq_of_vacant (ht : AnyDict.Reachable hasher (.fixed t)) (hsize : t.size = 0)
    (hsettings : t.settings = d.settings) (hmade : vacant d.capacity d.keys.hasher d.table.seed = .ok fresh) :
    t = fresh := by
  obtain ⟨hcapacity, hrest⟩ := Prod.mk.inj hsettings
  obtain ⟨hhasher, hseed⟩ := Prod.mk.inj hrest
  have hvacant : vacant t.keys.capacity t.keys.hasher t.keys.table.seed = .ok t := vacant_eq ht hsize
  rw [hcapacity, hhasher, hseed] at hvacant
  exact Except.ok.inj (hvacant.symm.trans hmade)

/-- Calls that leave a dictionary empty leave it as it was made. -/
theorem afterAll_eq_of_vacant (hd : AnyDict.Reachable hasher (.fixed d))
    (hmade : vacant d.capacity d.keys.hasher d.table.seed = .ok fresh) (calls : List (Call K V ε R))
    (hsize : (afterAll carryOut d calls).size = 0) : afterAll carryOut d calls = fresh := by
  obtain ⟨hreachable, hsettings⟩ := afterAll_keeps
    (P := fun t => AnyDict.Reachable hasher (.fixed t) ∧ t.settings = d.settings)
    (fun call t ht => ⟨ht.1.callFixed call, (carryOut_spares call t).trans ht.2⟩) calls ⟨hd, rfl⟩
  exact eq_of_vacant hreachable hsize hsettings hmade

/-- A call that leaves nothing under its key strikes what was there. -/
theorem Keeps.after_entry [EquivBEq K] {c : Nat} {m : List (K × V)} (h : Keeps hasher c d m)
    (hd : AnyDict.Reachable hasher (.fixed d)) (hlawful : hasher.Lawful) {call : EntryCall K V ε R}
    (hleaves : ∀ held, call.leaves held = none) :
    Keeps hasher c ((carryOut (.entry call)).runOn d).2 (strike Prod.fst m call.key) := by
  obtain ⟨b, x, hsearch, hx, hlookup⟩ | ⟨hsearch, hlookup⟩ := h.search hlawful call.key
  · obtain ⟨t, hrun, hkeeps⟩ := h.removeAt hx (mem_of_lookup hlookup).2 (some x.2)
    have hafter := hd.after_entry_of_hit hsearch hx
    rw [hleaves] at hafter
    have hremoved : ((carryOut (.entry call)).runOn d).2 = ((FixedDict.removeAt b).runOn d).2 :=
      AnyDict.fixed.inj hafter
    rw [assignValue_self hx] at hrun
    rw [hremoved, hrun]
    exact hkeeps
  · have hafter := hd.after_entry_of_miss hsearch
    rw [hleaves] at hafter
    have hsame : ((carryOut (.entry call)).runOn d).2 = d := AnyDict.fixed.inj hafter
    rw [hsame, strike_of_lookup_none hlookup]
    exact h

theorem Keeps.size_after_removals [EquivBEq K] {c : Nat} {m : List (K × V)} (h : Keeps hasher c d m)
    (hd : AnyDict.Reachable hasher (.fixed d)) (hlawful : hasher.Lawful) {calls : List (EntryCall K V ε R)}
    (hleaves : ∀ call ∈ calls, ∀ held, call.leaves held = none)
    (hcover : ∀ key, d.contains key = .ok true → ∃ call ∈ calls, (key == call.key) = true) :
    (afterAll carryOut d (calls.map .entry)).size = 0 := by
  have hstep : ∀ call ∈ calls, ∀ t m, Keeps hasher c t m ∧ AnyDict.Reachable hasher (.fixed t) →
      Keeps hasher c ((carryOut (.entry call)).runOn t).2 (strike Prod.fst m call.key) ∧
        AnyDict.Reachable hasher (.fixed ((carryOut (.entry call)).runOn t).2) :=
    fun call hcall _ _ ⟨h, ht⟩ => ⟨h.after_entry ht hlawful (hleaves call hcall), ht.callFixed (.entry call)⟩
  obtain ⟨hafter, -⟩ := afterAll_follows calls hstep ⟨h, hd⟩
  have hnil : (calls.map EntryCall.key).foldl (strike Prod.fst) m = [] := by
    refine foldl_strike_eq_nil fun x hx => ?_
    have hcontains : d.contains x.1 = .ok true := by
      rw [FixedDict.contains, h.keys.contains hlawful x.1, member_of_mem (List.mem_map_of_mem hx)]
    obtain ⟨call, hcall, hkey⟩ := hcover x.1 hcontains
    exact ⟨call.key, List.mem_map_of_mem hcall, hkey⟩
  rw [← List.foldl_map, hnil] at hafter
  exact hafter.stores.steady.count

/-- What is made with the settings of the dictionary is `fresh`, and the dictionary is that whenever it is empty: after
any calls that leave it so, after clearing, and after calls that each left nothing under one key have come to all keys,
in whatever order. -/
structure EmptiesTo (hasher : Hasher K) (d fresh : FixedDict K V) : Prop where
  made : vacant d.capacity d.keys.hasher d.table.seed = .ok fresh
  calls : ∀ {ε R : Type} (calls : List (Call K V ε R)), (afterAll carryOut d calls).size = 0 →
    afterAll carryOut d calls = fresh
  removeAll : FixedDict.removeAll.runOn d = (.ok (), fresh)
  remove : ∀ [EquivBEq K], hasher.Lawful → ∀ {ε R : Type} (calls : List (EntryCall K V ε R)),
    (∀ call ∈ calls, ∀ held, call.leaves held = none) →
    (∀ key, d.contains key = .ok true → ∃ call ∈ calls, (key == call.key) = true) →
    afterAll carryOut d (calls.map .entry) = fresh

theorem exists_emptiesTo (hd : AnyDict.Reachable hasher (.fixed d)) : ∃ fresh, d.EmptiesTo hasher fresh := by
  have hlimit : d.capacity ≤ Scale.limit := (AnySet.Reachable.keys hd).inStep.shaped.capacity_le_limit
  obtain ⟨fresh, hmade, -⟩ := exists_keeps_nil (V := V) d.keys.hasher d.table.seed hlimit
  refine ⟨fresh, hmade, fun calls hsize => afterAll_eq_of_vacant hd hmade calls hsize, ?_, ?_⟩
  · obtain ⟨c, m, hsteady⟩ := hd.keptBy (FixedDict.steady hasher)
    obtain ⟨m', hkeeps, hnil⟩ := (Upkeep.removeAll_safe hsteady).after
    have hcount : (FixedDict.removeAll.runOn d).2.size = 0 := (Steady.count hkeeps).trans hnil
    have hafter : (FixedDict.removeAll.runOn d).2 = fresh :=
      afterAll_eq_of_vacant hd hmade [(.removeAll : Call K V Empty Empty)] hcount
    exact congrArg (Prod.mk (Except.ok ())) hafter
  · intro _ hlawful ε R calls hleaves hcover
    obtain ⟨c, m, hkeeps⟩ : ∃ c m, Keeps hasher c d m := hd.keptBy (FixedDict.lawful hlawful)
    exact afterAll_eq_of_vacant hd hmade _ (hkeeps.size_after_removals hd hlawful hleaves hcover)

end FixedDict

/-! ### Growing containers -/

namespace Growable

variable {C : Type}

/-- A growing container is made with the storage of a table, if it draws the seed of the table or needs none. -/
theorem exists_made {make : Nat → UInt64 → Except Fault C} {table : Table} {fresh : C} {seeds : Seeds}
    (hseq : Scale.OnSequence table.capacity) (hshaped : table.Shaped)
    (hdraw : Table.denseLimit < table.capacity → seeds.draw.1 = table.seed)
    (hmake : make table.capacity table.seed = .ok fresh) :
    ∃ rest, (do
      let capacity ← Scale.fitting table.capacity
      let (seed, seeds) := if capacity ≤ Table.denseLimit then (0, seeds) else seeds.draw
      return { storage := ← make capacity seed, seeds, journal := [] }) =
        (.ok ⟨fresh, rest, []⟩ : Except Fault (Growable C)) := by
  rw [hseq.fitting]
  by_cases hsmall : table.capacity ≤ Table.denseLimit
  · have hseed : table.seed = 0 := hshaped.seedless (Seating.layout_of_isDense (hshaped.dense_iff.mpr hsmall))
    rw [hseed] at hmake
    exact ⟨seeds, by simp only [bind, Except.bind, if_pos hsmall, hmake]; rfl⟩
  · have hseed := hdraw (Nat.not_le.mp hsmall)
    rw [← hseed] at hmake
    exact ⟨seeds.draw.2, by simp only [bind, Except.bind, if_neg hsmall, hmake]; rfl⟩

end Growable

section Growing

variable [BEq K] {hasher : Hasher K}

/-- Clearing the set keeps its capacity and leaves it with the storage of a set that is made with that capacity. -/
structure GrowSet.ClearsTo (g : GrowSet K) (fresh : FixedSet K) : Prop where
  made : FixedSet.vacant g.capacity g.storage.hasher g.table.seed = .ok fresh
  clear : GrowSet.clear.runOn g = (.ok (), { g with storage := fresh })
  vacant : ∀ seeds, (Table.denseLimit < g.capacity → seeds.draw.1 = g.table.seed) →
    ∃ rest, GrowSet.vacant g.capacity g.storage.hasher seeds = .ok ⟨fresh, rest, []⟩

theorem GrowSet.exists_clearsTo {g : GrowSet K} (hg : AnySet.Reachable hasher (.growing g)) :
    ∃ fresh, g.ClearsTo fresh := by
  obtain ⟨fresh, hempties⟩ := FixedSet.exists_emptiesTo hg.freeze
  obtain ⟨m, hheld⟩ := hg.steady
  have hshaped : g.table.Shaped := hg.inStep.shaped
  exact ⟨fresh, hempties.made, Growable.runOn_onStorage hempties.removeAll, fun seeds hdraw =>
    Growable.exists_made hheld.onSequence hshaped hdraw hempties.made⟩

structure GrowDict.ClearsTo (g : GrowDict K V) (fresh : FixedDict K V) : Prop where
  made : FixedDict.vacant g.capacity g.storage.keys.hasher g.table.seed = .ok fresh
  clear : GrowDict.clear.runOn g = (.ok (), { g with storage := fresh })
  vacant : ∀ seeds, (Table.denseLimit < g.capacity → seeds.draw.1 = g.table.seed) →
    ∃ rest, GrowDict.vacant g.capacity g.storage.keys.hasher seeds = .ok ⟨fresh, rest, []⟩

theorem GrowDict.exists_clearsTo {g : GrowDict K V} (hg : AnyDict.Reachable hasher (.growing g)) :
    ∃ fresh, g.ClearsTo fresh := by
  obtain ⟨fresh, hempties⟩ := FixedDict.exists_emptiesTo hg.freeze
  obtain ⟨m, hheld⟩ := hg.keptBy (FixedDict.steady hasher)
  have hshaped : g.table.Shaped := (AnySet.Reachable.keys hg.freeze).inStep.shaped
  exact ⟨fresh, hempties.made, Growable.runOn_onStorage hempties.removeAll, fun seeds hdraw =>
    Growable.exists_made hheld.onSequence hshaped hdraw hempties.made⟩

/-- However a fixed container came about and however it lost its last element, nothing is left of its history, and so
it is with what a growing one is left with by clearing. -/
theorem emptied_is_vacant :
    (∀ s : FixedSet K, AnySet.Reachable hasher (.fixed s) → ∃ fresh, s.EmptiesTo hasher fresh) ∧
    (∀ d : FixedDict K V, AnyDict.Reachable hasher (.fixed d) → ∃ fresh, d.EmptiesTo hasher fresh) ∧
    (∀ g : GrowSet K, AnySet.Reachable hasher (.growing g) → ∃ fresh, g.ClearsTo fresh) ∧
    (∀ g : GrowDict K V, AnyDict.Reachable hasher (.growing g) → ∃ fresh, g.ClearsTo fresh) :=
  ⟨fun _ hs => FixedSet.exists_emptiesTo hs, fun _ hd => FixedDict.exists_emptiesTo hd,
    fun _ hg => GrowSet.exists_clearsTo hg, fun _ hg => GrowDict.exists_clearsTo hg⟩

end Growing

/-- Four entries that belong in the last bucket, and so go on from the first one, are taken out one by one, two of them
by edits, of which one then gives up. A growing set is cleared. -/
theorem emptied_is_vacant_wrapping :
    (∃ d fresh : FixedDict (Fin 4) String, AnyDict.Reachable (fun _ _ => 31) (.fixed d) ∧ d.size = 4 ∧
      d.table.isOccupied 31 = true ∧ d.table.isOccupied 2 = true ∧
      FixedDict.vacant 16 (fun _ _ => 31) 7 = .ok fresh ∧ FixedDict.removeAll.runOn d = (.ok (), fresh) ∧
      afterAll FixedDict.carryOut d (([.edit 2 fun _ => (none, .error "no"), .remove 0, .removeEntry 3,
        .edit 1 fun _ => (none, .ok ())] : List (EntryCall (Fin 4) String Empty Unit)).map .entry) = fresh) ∧
    ∃ (g : GrowSet (Fin 4)) (fresh : FixedSet (Fin 4)), AnySet.Reachable (fun _ _ => 31) (.growing g) ∧ g.size = 4 ∧
      GrowSet.clear.runOn g = (.ok (), { g with storage := fresh }) ∧
      ∃ rest, GrowSet.vacant 28 g.storage.hasher (.constant 7) = .ok ⟨fresh, rest, []⟩ := by
  have hmade : AnyDict.Reachable (V := String) (fun _ (_ : Fin 4) => 31) (.fixed ⟨_, _⟩) :=
    .fixed (rfl : FixedDict.vacant 16 _ 7 = .ok _)
  have hfilled := hmade.callFixed (.extend [(0, "zero"), (1, "one"), (2, "two"), (3, "three")] :
    FixedDict.Call (Fin 4) String Empty Empty)
  have hmade' : AnySet.Reachable (fun _ (_ : Fin 4) => 31) (.growing ⟨_, ⟨fun _ => 7, 1⟩, []⟩) :=
    .growing (rfl : GrowSet.vacant 28 _ (.constant 7) = .ok _)
  have hfilled' := hmade'.callGrowing (.extend [0, 1, 2, 3] 4 : GrowSet.Call (Fin 4) Empty)
  obtain ⟨d, hd, hsize, hlast, hthird, hsettings⟩ : ∃ d : FixedDict (Fin 4) String,
      AnyDict.Reachable (fun _ _ => 31) (.fixed d) ∧ d.size = 4 ∧ d.table.isOccupied 31 = true ∧
      d.table.isOccupied 2 = true ∧ d.settings = (16, fun _ _ => 31, 7) :=
    ⟨_, hfilled, by decide +kernel, by decide +kernel, by decide +kernel, FixedDict.carryOut_spares _ _⟩
  obtain ⟨g, hg, hsize', hcapacity, hseed⟩ : ∃ g : GrowSet (Fin 4), AnySet.Reachable (fun _ _ => 31) (.growing g) ∧
      g.size = 4 ∧ g.capacity = 28 ∧ g.table.seed = 7 :=
    ⟨_, hfilled', by decide +kernel, by decide +kernel, by decide +kernel⟩
  obtain ⟨fresh, hempties⟩ := emptied_is_vacant.2.1 d hd
  obtain ⟨fresh', hclears⟩ := (emptied_is_vacant (V := String)).2.2.1 g hg
  obtain ⟨hlimit, hrest⟩ := Prod.mk.inj hsettings
  obtain ⟨hhasher, hdrawn⟩ := Prod.mk.inj hrest
  have hfresh := hempties.made
  rw [show d.capacity = 16 from hlimit, hhasher, show d.table.seed = 7 from hdrawn] at hfresh
  have hvacant := hclears.vacant (.constant 7) fun _ => hseed.symm
  rw [hcapacity] at hvacant
  refine ⟨⟨d, fresh, hd, hsize, hlast, hthird, hfresh, hempties.removeAll, ?_⟩, g, fresh', hg, hsize', hclears.clear,
    hvacant⟩
  refine hempties.remove (fun _ _ _ _ => rfl) _ ?_ fun key hkey => ?_
  · simp only [List.forall_mem_cons]
    exact ⟨by rintro (_ | _) <;> rfl, fun _ => rfl, fun _ => rfl, by rintro (_ | _) <;> rfl, nofun⟩
  · clear hkey
    decide +revert

end RobinHood
