import RobinHood.Proofs.FixedSet.Batch
import RobinHood.Proofs.Reachable

/-!
# Batches insert one by one

Whatever a producer does, a batch leaves a set as it would be had the keys that were staged been inserted one
after the other. A growing set makes room for all that is announced before it asks for any, and then stays as
large as it is.
-/

namespace RobinHood

open RobinHood.Action

variable {K ε S : Type}

namespace GrowSet

variable [BEq K] {hasher : Hasher K} {U : FixedSet.Upkeep hasher} {g : GrowSet K} {m : List K}

/-- While there is room, it is all left to the storage. -/
theorem runOn_insert_of_room (hroom : 1 ≤ g.freeCapacity) (key : K) :
    (insert key).runOn g = (Growable.onStorage (FixedSet.insert key)).runOn g := by
  rw [Growable.onStorage, runOn_within]
  cases hsearch : g.storage.search key with
  | error fault => simp only [insert, FixedSet.insert, runOn_get_bind, hsearch, runOn_error_bind]
  | ok probe =>
    simp only [insert, FixedSet.insert, runOn_get_bind, hsearch, runOn_ok_bind]
    split
    · rfl
    · have hplace : (Growable.insertAbsent key probe.hash).runOn g =
          (Growable.onStorage (FixedSet.insertNew key probe.hash)).runOn g := by
        rw [Growable.insertAbsent, runOn_bind_ok (Upkeep.runOn_ensureFree_of_room hroom), runOn_get_bind]
        rfl
      rw [runOn_bind, runOn_bind, hplace, Growable.onStorage, runOn_within]
      obtain ⟨landed, t⟩ := (FixedSet.insertNew key probe.hash).runOn g.storage
      cases landed <;> rfl

theorem runOn_forM_insert (keys : List K) : ∀ {g : GrowSet K} {m : List K} {t : FixedSet K}, U.Held g m →
    m.length + keys.length ≤ g.capacity → (FixedSet.extend keys).runOn g.storage = (.ok (), t) →
    ActionT.runOn (keys.forM fun key => do let _ ← insert key) g = (.ok (), { g with storage := t }) := by
  induction keys with
  | nil =>
    intro g m t _ _ h
    cases h
    rfl
  | cons key keys ih =>
    intro g m t hheld hroom h
    rw [List.length_cons] at hroom
    have hfree : 1 ≤ g.freeCapacity := by
      rw [hheld.freeCapacity]
      omega
    obtain ⟨answer, u, m', hrun, hkeeps, hle⟩ := FixedSet.Upkeep.insert_of_room hheld.keeps (by omega) key
    have hinsert : (insert key).runOn g = (.ok answer, { g with storage := u }) := by
      rw [runOn_insert_of_room hfree]
      exact Growable.runOn_onStorage hrun
    rw [FixedSet.extend, forM_cons, runOn_bind_ok hrun] at h
    rw [forM_cons, runOn_bind_ok hinsert]
    have hheld' : U.Held { g with storage := u } m' := ⟨_, hheld.onSequence, hkeeps⟩
    have hcap : ({ g with storage := u } : GrowSet K).capacity = g.capacity := U.capacity (U.stores hkeeps)
    exact ih hheld' (by omega) h

/-- Once there is room for all that is announced, a batch goes on as in the storage. -/
theorem insertBatch_session {produce : Producer K ε (StateM S)} (hproduce : produce.Handles) (h : U.Held g m)
    {maximum : Nat} (hlimit : g.size + maximum ≤ Scale.limit) (i : S) :
    ∃ replaced u keys outcome t j, (Growable.ensureFree maximum).runOn g = (.ok replaced, u) ∧
      maximum ≤ u.freeCapacity ∧ produce.Session maximum i keys outcome j ∧ keys.length ≤ maximum ∧
      ActionT.runOn (keys.forM fun key => do let _ ← insert key) u = (.ok (), t) ∧
      ((insertBatch maximum produce).runOn g).run i = ((outcome, t), j) := by
  rw [h.size] at hlimit
  obtain ⟨-, u, replaced, hensure, -, hheld, hmakes⟩ | ⟨hover, -⟩ := h.ensureFree maximum
  · have hroom := hmakes.le
    have hfree := hheld.freeCapacity
    have hstorage : maximum ≤ FixedSet.freeCapacity u.storage := by
      change maximum ≤ u.freeCapacity
      omega
    obtain ⟨keys, outcome, t, j, hsession, hle, hextend, hrun⟩ :=
      FixedSet.Upkeep.insertBatch_session hproduce hheld.keeps hstorage i
    refine ⟨replaced, u, keys, outcome, { u with storage := t }, j, hensure, hstorage, hsession, hle,
      runOn_forM_insert keys hheld (by omega) hextend, ?_⟩
    rw [Upkeep.run_insertBatch, hensure]
    dsimp only
    rw [hrun]
  · omega

end GrowSet

theorem FixedSet.ofList_eq_extend [BEq K] (hasher : Hasher K) {c : Nat} (hlimit : c ≤ Scale.limit) (seed : UInt64)
    (source : List K) : ∃ s t, vacant c hasher seed = .ok s ∧ (extend (source.take c)).runOn s = (.ok (), t) ∧
      ((insertBatch c (.filling (ε := Empty))).runOn s).run source = ((.ok (.ok ()), t), source.drop c) ∧
      ofList c hasher seed source = .ok t := by
  obtain ⟨s, hvacant, hkeeps⟩ := exists_keeps_nil hasher seed hlimit
  have hfree : c ≤ s.freeCapacity := by
    rw [freeCapacity, Table.freeCapacity, hkeeps.steady.count, hkeeps.capacity]
    exact le_refl c
  obtain ⟨keys, outcome, t, rest, hsession, -, hextend, hrun⟩ :=
    Upkeep.insertBatch_session (U := steady hasher) (Producer.handles_filling (ε := Empty)) hkeeps.steady hfree source
  obtain ⟨rfl, rfl, rfl⟩ := hsession.of_filling
  refine ⟨s, t, hvacant, hextend, hrun, ?_⟩
  have hfirst := congrArg Prod.fst hrun
  rw [ofList, hvacant]
  dsimp only [bind, Except.bind]
  split
  · next hran =>
    cases hfirst.symm.trans hran
    rfl
  · next hran => cases hfirst.symm.trans hran

/-- As long as no more keys are announced than there is room for, or room can be made for, a batch inserts what its
producer stages, which is never more than was announced. A list that is handed over loses as many keys as were
announced, and so does the list that a set is made from. -/
theorem batches_insert_one_by_one [BEq K] (hasher : Hasher K) :
    (∀ {ε S : Type} (s : FixedSet K) (produce : Producer K ε (StateM S)) (maximum : Nat) (i : S),
      AnySet.Reachable hasher (.fixed s) → produce.Handles → maximum ≤ s.freeCapacity →
      ∃ keys outcome t j, produce.Session maximum i keys outcome j ∧ keys.length ≤ maximum ∧
        (FixedSet.extend keys).runOn s = (.ok (), t) ∧
        ((FixedSet.insertBatch maximum produce).runOn s).run i = ((outcome, t), j)) ∧
    (∀ {ε S : Type} (g : GrowSet K) (produce : Producer K ε (StateM S)) (maximum : Nat) (i : S),
      AnySet.Reachable hasher (.growing g) → produce.Handles → g.size + maximum ≤ Scale.limit →
      ∃ replaced u keys outcome t j, (Growable.ensureFree maximum).runOn g = (.ok replaced, u) ∧
        maximum ≤ u.freeCapacity ∧ produce.Session maximum i keys outcome j ∧ keys.length ≤ maximum ∧
        ActionT.runOn (keys.forM fun key => do let _ ← GrowSet.insert key) u = (.ok (), t) ∧
        ((GrowSet.insertBatch maximum produce).runOn g).run i = ((outcome, t), j)) ∧
    (∀ {ε : Type} (s : FixedSet K) (maximum : Nat) (source : List K),
      AnySet.Reachable hasher (.fixed s) → maximum ≤ s.freeCapacity →
      ∃ t, (FixedSet.extend (source.take maximum)).runOn s = (.ok (), t) ∧
        ((FixedSet.insertBatch maximum (.filling (ε := ε))).runOn s).run source =
          ((.ok (.ok ()), t), source.drop maximum)) ∧
    (∀ {ε : Type} (g : GrowSet K) (maximum : Nat) (source : List K),
      AnySet.Reachable hasher (.growing g) → g.size + maximum ≤ Scale.limit →
      ∃ replaced u t, (Growable.ensureFree maximum).runOn g = (.ok replaced, u) ∧
        ActionT.runOn ((source.take maximum).forM fun key => do let _ ← GrowSet.insert key) u = (.ok (), t) ∧
        ((GrowSet.insertBatch maximum (.filling (ε := ε))).runOn g).run source =
          ((.ok (.ok ()), t), source.drop maximum)) ∧
    ∀ (c : Nat) (seed : UInt64) (source : List K), c ≤ Scale.limit →
      ∃ s t, FixedSet.vacant c hasher seed = .ok s ∧ (FixedSet.extend (source.take c)).runOn s = (.ok (), t) ∧
        ((FixedSet.insertBatch c (.filling (ε := Empty))).runOn s).run source = ((.ok (.ok ()), t), source.drop c) ∧
        FixedSet.ofList c hasher seed source = .ok t := by
  refine ⟨?_, ?_, ?_, ?_, ?_⟩
  · intro ε S s produce maximum i hreachable hproduce hroom
    obtain ⟨c, m, hsteady⟩ := hreachable.steady
    exact FixedSet.Upkeep.insertBatch_session (U := FixedSet.steady hasher) hproduce hsteady hroom i
  · intro ε S g produce maximum i hreachable hproduce hlimit
    obtain ⟨m, hheld⟩ := hreachable.steady
    exact GrowSet.insertBatch_session hproduce hheld hlimit i
  · intro ε s maximum source hreachable hroom
    obtain ⟨c, m, hsteady⟩ := hreachable.steady
    obtain ⟨keys, outcome, t, rest, hsession, -, hextend, hrun⟩ := FixedSet.Upkeep.insertBatch_session
      (U := FixedSet.steady hasher) (Producer.handles_filling (ε := ε)) hsteady hroom source
    obtain ⟨rfl, rfl, rfl⟩ := hsession.of_filling
    exact ⟨t, hextend, hrun⟩
  · intro ε g maximum source hreachable hlimit
    obtain ⟨m, hheld⟩ := hreachable.steady
    obtain ⟨replaced, u, keys, outcome, t, rest, hensure, -, hsession, -, hinsert, hrun⟩ :=
      GrowSet.insertBatch_session (Producer.handles_filling (ε := ε)) hheld hlimit source
    obtain ⟨rfl, rfl, rfl⟩ := hsession.of_filling
    exact ⟨replaced, u, t, hensure, hinsert, hrun⟩
  · intro c seed source hlimit
    exact FixedSet.ofList_eq_extend hasher hlimit seed source

/-- A set with one member is to be given 18 keys. The producer fills the first buffer, mostly with that member, and
fails when it has staged one of the two keys that remain. -/
theorem batches_insert_one_by_one_failing : ∃ (s t : FixedSet Nat) (stage : Staging Nat String),
    AnySet.Reachable (fun _ key => key.toUInt64) (.fixed s) ∧ s.slots.elements = [7] ∧ 18 ≤ s.freeCapacity ∧
    stage.producer.Session 18 0 (List.replicate 15 7 ++ [3] ++ [5]) (.ok (.error "stop")) 2 ∧
    (FixedSet.extend (List.replicate 15 7 ++ [3] ++ [5])).runOn s = (.ok (), t) ∧
    ((FixedSet.insertBatch 18 stage.producer).runOn s).run 0 = ((.ok (.error "stop"), t), 2) ∧
    t.slots.elements = [3, 5, 7] := by
  have hnew : AnySet.Reachable (fun _ (key : Nat) => key.toUInt64) (.fixed ⟨_, _⟩) :=
    .fixed (rfl : FixedSet.vacant 20 _ 0 = .ok _)
  have hone := hnew.callFixed (.member (.insert 7) : FixedSet.Call Nat Empty)
  let stage : Staging Nat String := fun i _ =>
    if i = 0 then .ok (List.replicate 15 7 ++ [3], .ok ()) else .ok ([5], .error "stop")
  obtain ⟨keys, outcome, t, j, hsession, -, hextend, hrun⟩ :=
    (batches_insert_one_by_one _).1 _ stage.producer 18 0 hone stage.handles (by decide)
  have hends : keys = List.replicate 15 7 ++ [3] ++ [5] ∧ outcome = .ok (.error "stop") ∧ j = 2 := by
    cases hsession with
    | gaveUp _ hask => cases hask
    | failed _ hask => cases hask
    | unfilled _ hask hshort =>
      cases hask
      exact absurd hshort (by decide)
    | filled _ hask _ hrest =>
      cases hask
      cases hrest with
      | gaveUp _ hask => cases hask
      | failed _ hask =>
        cases hask
        exact ⟨rfl, rfl, rfl⟩
      | unfilled _ hask => cases hask
      | filled _ hask => cases hask
  obtain ⟨rfl, rfl, rfl⟩ := hends
  refine ⟨_, t, stage, hone, by decide +kernel, by decide, hsession, hextend, hrun, ?_⟩
  have hinserted := congrArg (fun step => step.2.slots.elements) hextend
  rw [← show _ = t.slots.elements from hinserted]
  decide +kernel

end RobinHood
