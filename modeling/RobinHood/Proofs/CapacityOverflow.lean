import RobinHood.Proofs.Batches
import RobinHood.Proofs.Growable.Room

/-!
# No room for so many

A growing container that is asked for more room than any capacity has refuses before it changes or records anything:
when it is told to reserve, when keys are announced by a source, and when a batch is offered. No caller's function is
called and no item drawn. Whatever else it is asked for it makes room, and keeps what it has.
-/

namespace RobinHood

open RobinHood.Action

variable {ι K V : Type}

namespace Growable

variable {C α β : Type} [Backing C α]

/-- A container that is told how many items a source announces: it asks the source for none if so many overrun the
container. Otherwise room is made first, and the items are then taken one by one until one is lacking room. -/
structure Draws (action : ι → Action (Growable C) β) (lacking : ι → Growable C → Prop)
    (extend : List ι → Nat → Action (Growable C) Unit) (g : Growable C) (hint : Nat) : Prop where
  refused : g.Overruns hint → ∀ items, (extend items hint).runOn g = (.error .capacityOverflow, g)
  undrawn : g.Overruns hint → ∀ {m : Type → Type} [Monad m] [LawfulMonad m] (next : m (Option ι)) (limit : Nat),
    (drawFrom next action limit hint).runOn g = pure (.error .capacityOverflow, g)
  drawn : ∀ {S : Type} {next : StateM S (Option ι)} {s : S} {items : List ι}, Gives next s items →
    ∀ limit, items.length < limit →
      (((drawFrom next action limit hint).runOn g).run s).1 = (extend items hint).runOn g
  sweeps : ∀ t, (reserve hint).runOn g = (.ok (), t) → ∀ items,
    Sweeps action .capacityOverflow lacking t items ((extend items hint).runOn g)
  refused_iff : ∀ items, items.length ≤ hint →
    (((extend items hint).runOn g).1 = .error .capacityOverflow ↔ g.Overruns hint)

variable {P : Growable C → Prop} {action : ι → Action (Growable C) β} {lacking : ι → Growable C → Prop}
  {g t : Growable C} {hint : Nat} {items : List ι}

/-- Items that are taken add at most one element each. -/
theorem size_le_of_takes (hafter : ∀ i g, P g → P ((action i).runOn g).2 ∧ ((action i).runOn g).2.size ≤ g.size + 1)
    (h : Takes action g items t) (hg : P g) : t.size ≤ g.size + items.length := by
  induction h with
  | nil => exact Nat.le_refl _
  | @cons s t u i rest x hrun _ ih =>
    obtain ⟨hnext, hsize⟩ := hafter i s hg
    rw [hrun] at hnext hsize
    calc u.size ≤ t.size + rest.length := ih hnext
      _ ≤ s.size + 1 + rest.length := Nat.add_le_add_right hsize _
      _ = s.size + (i :: rest).length := by rw [List.length_cons]; omega

/-- Making room first and then going through the items is all it takes. -/
theorem draws_of_overflows {extend : List ι → Nat → Action (Growable C) Unit}
    (hextend : ∀ items hint, extend items hint = do reserve hint; items.forM fun i => do let _ ← action i)
    (hoverflows : ∀ i g, P g → Overflows .capacityOverflow (lacking i g) neverGivesUp g ((action i).runOn g))
    (hlacking : ∀ i g, lacking i g → g.Overruns 1)
    (hafter : ∀ i g, P g → P ((action i).runOn g).2 ∧ ((action i).runOn g).2.size ≤ g.size + 1)
    (hprovisions : g.Provisions hint) (hmade : P ((reserve hint).runOn g).2) : Draws action lacking extend g hint := by
  have hrefused : g.Overruns hint → ∀ items, (extend items hint).runOn g = (.error .capacityOverflow, g) := by
    intro hover items
    rw [hextend, runOn_bind_error (Upkeep.runOn_reserve_of_overruns hover)]
  have hsweeps : ∀ t, (reserve hint).runOn g = (.ok (), t) → ∀ items,
      Sweeps action .capacityOverflow lacking t items ((extend items hint).runOn g) := by
    intro t hreserve items
    rw [hreserve] at hmade
    rw [hextend, runOn_bind_ok hreserve]
    exact sweeps_of_overflows hoverflows (fun i g hg => (hafter i g hg).1) items hmade
  refine ⟨hrefused, fun hover _ _ _ next limit => runOn_drawFrom_of_overruns hover next limit,
    fun hgives limit hlimit => by rw [run_drawFrom hgives hlimit, hextend], hsweeps, fun items hle => ⟨?_, ?_⟩⟩
  · intro hstopped
    by_contra hroom
    obtain ⟨t, hreserve, -, hsize, -⟩ := hprovisions.provides hroom
    have hsweep := hsweeps t hreserve items
    rw [hreserve] at hmade
    generalize (extend items hint).runOn g = ended at hstopped hsweep
    cases hsweep with
    | all => cases hstopped
    | @upTo before after i u hitems htakes hlacks =>
      -- those before the item that lacks room are fewer than were announced, and room was made for all of these
      have hadded := size_le_of_takes hafter htakes hmade
      have hfull := (hlacking i u hlacks).2
      have hlength := congrArg List.length hitems
      rw [List.length_append, List.length_cons] at hlength
      exact hroom (hprovisions.overruns_iff.mpr (by omega))
  · exact fun hover => congrArg Prod.fst (hrefused hover items)

end Growable

open Growable

variable [BEq K] {hasher : Hasher K}

/-! ### Batches -/

/-- The producer never reports that a capacity would be too large. -/
def Producer.Unrelated {ε S : Type} (produce : Producer K ε (StateM S)) : Prop :=
  ∀ buffer i, ((produce buffer).run i).1 ≠ .error .capacityOverflow

omit [BEq K] in
/-- Only a producer that gives up ends a session with a fault. -/
theorem Producer.Session.ne_capacityOverflow {ε S : Type} {produce : Producer K ε (StateM S)} {remaining : Nat}
    {i j : S} {keys : List K} {outcome : Except Fault (Except ε Unit)}
    (h : produce.Session remaining i keys outcome j) (hproduce : produce.Unrelated) :
    outcome ≠ .error .capacityOverflow := by
  induction h with
  | finished => nofun
  | @gaveUp _ i j fault _ hrun =>
    rintro ⟨⟩
    exact hproduce _ _ (congrArg Prod.fst hrun)
  | failed => nofun
  | unfilled => nofun
  | filled _ _ _ _ ih => exact ih

namespace GrowSet

variable {g : GrowSet K} {n : Nat}

/-- The set does not have the key, and another one overruns it. -/
def Lacks (g : GrowSet K) (key : K) : Prop :=
  g.storage.get? key = .ok none ∧ g.Overruns 1

/-- What a set does about so many keys, asked for as room, announced by a source or offered in a batch. -/
structure Admits (hasher : Hasher K) (g : GrowSet K) (n : Nat) : Prop extends g.Provisions n where
  found : ∀ [EquivBEq K], hasher.Lawful → ∀ t, (reserve n).runOn g = (.ok (), t) →
    ∀ key, t.storage.get? key = g.storage.get? key
  draws : Draws insert (fun key t => Lacks t key) extend g n
  uncalled : g.Overruns n → ∀ {m : Type → Type} [Monad m] [LawfulMonad m] {ε : Type} (produce : Producer K ε m),
    (insertBatch n produce).runOn g = pure (.error .capacityOverflow, g)
  called : ∀ t, (reserve n).runOn g = (.ok (), t) → ∀ {m : Type → Type} [Monad m] [LawfulMonad m] {ε : Type}
    (produce : Producer K ε m),
    (insertBatch n produce).runOn g = (onStorage (FixedSet.insertBatch n produce)).runOn t
  batch_refused_iff : ∀ {ε S : Type} (produce : Producer K ε (StateM S)), produce.Handles → produce.Unrelated →
    ∀ i, (((insertBatch n produce).runOn g).run i).1.1 = .error .capacityOverflow ↔ g.Overruns n

theorem insert_overflows (hg : AnySet.Reachable hasher (.growing g)) (key : K) :
    Overflows .capacityOverflow (Lacks g key) neverGivesUp g ((insert key).runOn g) := by
  obtain ⟨m, h⟩ : (FixedSet.steady hasher).Kept g := hg.steady
  obtain ⟨b, x, hash, hsearch, hx, hkey⟩ | ⟨hsearch, hapart⟩ := (FixedSet.steady hasher).search h.keeps key
  · have hget := (FixedSet.holdsFor_of_hit hg.freeze hsearch hx hkey).get?
    simp only [insert, runOn_get_bind, runOn_ok_bind, hsearch]
    exact .done (fun hlacks => Option.some_ne_none _ (Except.ok.inj (hget.symm.trans hlacks.1))) _ _
  · have hget := (FixedSet.holdsFor_of_miss hg.freeze hsearch).get?
    have hover := (h.insertAbsent_overflows hapart).reply fun _ => (none : Option K)
    simp only [insert, runOn_get_bind, runOn_ok_bind, hsearch]
    exact (runOn_map _ _ _).symm ▸ hover.congr (and_iff_right hget).symm

theorem admits (hg : AnySet.Reachable hasher (.growing g)) (n : Nat) : g.Admits hasher n := by
  obtain ⟨m, h⟩ : (FixedSet.steady hasher).Kept g := hg.steady
  have hmade := hg.callGrowing (.reserve n : Call K Empty)
  have hprovisions := h.provisions (fun hkeeps => hkeeps.inStep.shaped) n
  refine ⟨hprovisions, fun hlawful t hreserve key => ?_, ?_, ?_, ?_, ?_⟩
  · obtain ⟨m, h⟩ : (FixedSet.lawful hlawful).Kept g := hg.lawful hlawful
    by_cases hover : g.Overruns n
    · cases hreserve.symm.trans (Upkeep.runOn_reserve_of_overruns hover)
    · obtain ⟨u, -, -, hrun, hheld, -⟩ := h.ensureFree_of_not_overruns hover
      cases hreserve.symm.trans hrun
      exact (FixedSet.Keeps.get? hheld.keeps hlawful key).trans (FixedSet.Keeps.get? h.keeps hlawful key).symm
  · refine draws_of_overflows (P := fun g => AnySet.Reachable hasher (.growing g)) (fun _ _ => rfl)
      (fun key g hg => insert_overflows hg key) (fun _ _ => And.right) (fun key g hg => ?_) hprovisions hmade
    have hafter := hg.callGrowing (.member (.insert key) : Call K Empty)
    rw [carryOut, runOn_map] at hafter
    obtain ⟨-, before, -, heffect⟩ := (Upkeep.insert_safe (U := FixedSet.steady hasher) hg.steady key).after
    exact ⟨hafter, heffect.size_le⟩
  · intro hover m _ _ ε produce
    rw [insertBatch, runOn_lift_bind, Upkeep.runOn_ensureFree_of_overruns hover]
  · intro t hreserve m _ _ ε produce
    by_cases hover : g.Overruns n
    · cases hreserve.symm.trans (Upkeep.runOn_reserve_of_overruns hover)
    · obtain ⟨u, replaced, hensure, hrun, -⟩ := h.ensureFree_of_not_overruns hover
      cases hreserve.symm.trans hrun
      rw [insertBatch, runOn_lift_bind, hensure]
  · intro ε S produce hhandles hunrelated i
    constructor
    · intro hrefused
      by_contra hover
      obtain ⟨-, -, keys, outcome, t, j, -, -, hsession, -, -, hrun⟩ :=
        insertBatch_session hhandles h (Nat.not_lt.mp fun hlt => hover ((h.overruns_iff n).mpr hlt)) i
      rw [hrun] at hrefused
      exact hsession.ne_capacityOverflow hunrelated hrefused
    · intro hover
      rw [Upkeep.run_insertBatch, Upkeep.runOn_ensureFree_of_overruns hover]

end GrowSet

namespace GrowDict

variable {g : GrowDict K V} {n : Nat}

def Lacks (g : GrowDict K V) (key : K) : Prop :=
  g.storage.get? key = .ok none ∧ g.Overruns 1

/-- What a dictionary does about so many entries, asked for as room or announced by a source. -/
structure Admits (hasher : Hasher K) (g : GrowDict K V) (n : Nat) : Prop extends g.Provisions n where
  found : ∀ [EquivBEq K], hasher.Lawful → ∀ t, (reserve n).runOn g = (.ok (), t) →
    ∀ key, t.storage.get? key = g.storage.get? key
  draws : Draws (fun entry => update entry.1 entry.2) (fun entry t => Lacks t entry.1) extend g n

theorem update_overflows (hg : AnyDict.Reachable hasher (.growing g)) (key : K) (value : V) :
    Overflows .capacityOverflow (Lacks g key) neverGivesUp g ((update key value).runOn g) := by
  obtain ⟨m, h⟩ : (FixedDict.steady hasher).Kept g := hg.keptBy _
  obtain ⟨b, x, hash, hsearch, hx, hkey⟩ | ⟨hsearch, hapart⟩ := (FixedDict.steady hasher).search h.keeps key
  · have hget := FixedDict.get?_of_search_some hsearch hx
    simp only [update, runOn_get_bind, runOn_ok_bind, hsearch, runOn_bind_ok (runOn_replaceIn hx value)]
    exact .done (fun hlacks => Option.some_ne_none _ (Except.ok.inj (hget.symm.trans hlacks.1))) _ _
  · have hget := FixedDict.get?_of_search_none hsearch
    have hover := (h.insertAbsent_overflows (hapart value)).reply fun _ => (none : Option V)
    simp only [update, runOn_get_bind, runOn_ok_bind, hsearch]
    exact (runOn_map _ _ _).symm ▸ hover.congr (and_iff_right hget).symm

theorem admits (hg : AnyDict.Reachable hasher (.growing g)) (n : Nat) : g.Admits hasher n := by
  obtain ⟨m, h⟩ : (FixedDict.steady hasher).Kept g := hg.keptBy _
  have hmade := hg.callGrowing (.reserve n : Call K V Empty Empty)
  have hprovisions : g.Provisions n := by
    refine h.provisions (fun hkeeps => ?_) n
    obtain ⟨s, rfl, -, hstep, -⟩ := hkeeps
    exact hstep.shaped
  refine ⟨hprovisions, fun hlawful t hreserve key => ?_, ?_⟩
  · obtain ⟨m, h⟩ : (FixedDict.lawful hlawful).Kept g := hg.keptBy (FixedDict.lawful hlawful)
    by_cases hover : g.Overruns n
    · cases hreserve.symm.trans (Upkeep.runOn_reserve_of_overruns hover)
    · obtain ⟨u, -, -, hrun, hheld, -⟩ := h.ensureFree_of_not_overruns hover
      cases hreserve.symm.trans hrun
      exact (FixedDict.Keeps.get? hheld.keeps hlawful key).trans (FixedDict.Keeps.get? h.keeps hlawful key).symm
  · refine draws_of_overflows (P := fun g => AnyDict.Reachable hasher (.growing g)) (fun _ _ => rfl)
      (fun entry g hg => update_overflows hg entry.1 entry.2) (fun _ _ => And.right) (fun entry g hg => ?_) hprovisions
      hmade
    have hafter := hg.callGrowing (.entry (.update entry.1 entry.2) : Call K V Empty Empty)
    rw [carryOut, runOn_map] at hafter
    obtain ⟨-, held, -, heffect⟩ :=
      (Upkeep.update_safe (U := FixedDict.steady hasher) (ε := Empty) (R := Empty) (hg.keptBy _) entry.1 entry.2).after
    exact ⟨hafter, heffect.size_le⟩

end GrowDict

/-- Whatever a growing container has been through, and however many elements it is to make room for: it refuses exactly
if they are more than it has room for and their sum with its elements is beyond the largest capacity, and is left as
it was. -/
theorem capacity_overflow_first (hasher : Hasher K) :
    (∀ (g : GrowSet K) (n : Nat), AnySet.Reachable hasher (.growing g) → g.Admits hasher n) ∧
    (∀ (g : GrowDict K V) (n : Nat), AnyDict.Reachable hasher (.growing g) → g.Admits hasher n) ∧
    Fault.capacityOverflow.message = "capacity overflow" :=
  ⟨fun _ n hg => GrowSet.admits hg n, fun _ n hg => GrowDict.admits hg n, rfl⟩

/-- A set with one member refuses the largest capacity, and what makes its sum with one no word, whether reserved or
offered in a batch. It makes room for one less than the largest capacity. -/
theorem capacity_overflow_first_at_limit : ∃ g t : GrowSet Nat,
    AnySet.Reachable (fun _ key => key.toUInt64) (.growing g) ∧ g.size = 1 ∧ g.freeCapacity = 0 ∧
    (reserve (7 * 2 ^ 59)).runOn g = (.error .capacityOverflow, g) ∧
    (reserve (2 ^ 64 - 1)).runOn g = (.error .capacityOverflow, g) ∧
    (∀ produce : Producer Nat Empty (StateM Nat),
      (GrowSet.insertBatch (2 ^ 64 - 1) produce).runOn g = pure (.error .capacityOverflow, g)) ∧
    (reserve (7 * 2 ^ 59 - 1)).runOn g = (.ok (), t) ∧ 7 * 2 ^ 59 - 1 ≤ t.freeCapacity ∧ t.size = 1 := by
  have hnew : AnySet.Reachable (fun _ (key : Nat) => key.toUInt64) (.growing ⟨_, .constant 0, []⟩) :=
    .growing (rfl : GrowSet.vacant 0 _ _ = .ok _)
  have hone := hnew.callGrowing (.member (.insert 1) : GrowSet.Call Nat Empty)
  obtain ⟨g, hg, hsize, hfree⟩ : ∃ g : GrowSet Nat, AnySet.Reachable (fun _ key => key.toUInt64) (.growing g) ∧
      g.size = 1 ∧ g.freeCapacity = 0 := ⟨_, hone, by decide +kernel, by decide +kernel⟩
  have hadmits := fun n => (capacity_overflow_first (V := Nat) _).1 g n hg
  have hover : g.Overruns (2 ^ 64 - 1) := by rw [Overruns, hsize, hfree]; decide
  obtain ⟨t, hreserve, hroom, hsame, -⟩ := (hadmits (7 * 2 ^ 59 - 1)).provides (by rw [Overruns, hsize, hfree]; decide)
  exact ⟨g, t, hg, hsize, hfree, (hadmits _).overflows.eq (by rw [Overruns, hsize, hfree]; decide),
    (hadmits _).overflows.eq hover, (hadmits _).uncalled hover, hreserve, hroom, hsame.trans hsize⟩

end RobinHood
