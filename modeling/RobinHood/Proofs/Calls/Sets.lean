import RobinHood.Proofs.FixedSet.Upkeep
import RobinHood.Proofs.Growable.Effect

/-!
# Calls to sets

Every public call that may change a set, and what it keeps: the set stays one that the storage can be kept
up for, only faults of the contract stop it, and the capacity of a growing set follows the policy.
-/

namespace RobinHood

open RobinHood.Action RobinHood.Ledger

variable {K ε S : Type}

inductive MemberCall (K : Type) where
  | insert (key : K)
  | update (key : K)
  | remove (key : K)

namespace MemberCall

def key : MemberCall K → K
  | insert key | update key | remove key => key

def leaves : MemberCall K → Bool
  | insert _ | update _ => true
  | remove _ => false

end MemberCall

/-- What the caller stages when asked for the `i`-th time with room for so many keys, unless it gives up. -/
abbrev Staging (K ε : Type) :=
  Nat → Nat → Except String (List K × Except ε Unit)

/-- The producer that counts how often it is asked. -/
def Staging.producer (stage : Staging K ε) : Producer K ε (StateM Nat) := fun buffer => do
  let i ← get
  set (i + 1)
  return do
    let (keys, outcome) ← unlessAborted (stage i buffer.limit)
    return (← keys.foldlM Buffer.push buffer, outcome)

theorem Staging.run_producer (stage : Staging K ε) (buffer : Buffer K) (i : Nat) :
    (stage.producer buffer).run i = (do
      let (keys, outcome) ← unlessAborted (stage i buffer.limit)
      return (← keys.foldlM Buffer.push buffer, outcome), i + 1) := rfl

/-- The producer stops with no fault but those of the contract. -/
def Producer.Honest (produce : Producer K ε (StateM S)) : Prop :=
  ∀ buffer i, WithinContract ((produce buffer).run i).1

theorem Buffer.contract_of_push {key : K} {buffer : Buffer K} {fault : Fault} (h : buffer.push key = .error fault) :
    fault.isInternal = false := by
  rw [Buffer.push] at h
  split at h
  · cases h
    rfl
  · cases h

theorem Buffer.contract_of_foldlM (keys : List K) : ∀ {buffer : Buffer K} {fault : Fault},
    keys.foldlM Buffer.push buffer = .error fault → fault.isInternal = false := by
  induction keys with
  | nil => exact fun h => by cases h
  | cons key keys ih =>
    intro buffer fault h
    rw [List.foldlM_cons] at h
    cases hpush : buffer.push key with
    | error fault' =>
      rw [hpush] at h
      cases h
      exact contract_of_push hpush
    | ok pushed =>
      rw [hpush] at h
      exact ih h

theorem Staging.honest (stage : Staging K ε) : stage.producer.Honest := by
  intro buffer i fault h
  rw [stage.run_producer] at h
  cases hstage : stage i buffer.limit with
  | error text =>
    rw [hstage] at h
    cases h
    rfl
  | ok answer =>
    rw [hstage] at h
    cases hpushed : answer.1.foldlM Buffer.push buffer with
    | error fault' =>
      simp only [unlessAborted, Except.mapError, hpushed, bind, Except.bind] at h
      cases h
      exact Buffer.contract_of_foldlM _ hpushed
    | ok pushed =>
      simp only [unlessAborted, Except.mapError, hpushed, bind, Except.bind] at h
      cases h

namespace FixedSet

inductive Call (K ε : Type) where
  | member (call : MemberCall K)
  | tryInsert (key : K)
  | removeAll
  | extend (keys : List K)
  | batch (maximum : Nat) (stage : Staging K ε)

variable [BEq K]

/-- Makes the call and drops the answer. -/
def carryOut : Call K ε → Action (FixedSet K) Unit
  | .member (.insert key) => do let _ ← insert key
  | .member (.update key) => do let _ ← update key
  | .member (.remove key) => do let _ ← remove key
  | .tryInsert key => do let _ ← tryInsert key
  | .removeAll => removeAll
  | .extend keys => extend keys
  | .batch maximum stage => do
    let _ ← ActionT.ofStep fun s => ((insertBatch maximum stage.producer).runOn s |>.run 0).1

namespace Upkeep

variable {hasher : Hasher K} {U : Upkeep hasher} {c : Nat} {s : FixedSet K} {m : List K}

theorem insertNew_safe (h : U.Keeps c s m) {key : K} (hapart : ∀ y ∈ m, U.Apart key y) :
    Safe (U.Has c) ((FixedSet.insertNew key (if s.table.isDense then 0 else s.hashOf key)).runOn s) :=
  (U.insertNew h hapart).safe h (by rw [U.refusal_eq]; rfl)

theorem insert_safe (h : U.Has c s) (key : K) : Safe (U.Has c) ((insert key).runOn s) := by
  obtain ⟨m, h⟩ := h
  obtain ⟨b, x, hash, hsearch, -, -⟩ | ⟨hsearch, hapart⟩ := U.search h key
  · simp only [insert, runOn_get_bind, runOn_ok_bind, hsearch]
    exact .ok _ ⟨m, h⟩
  · simp only [insert, runOn_get_bind, runOn_ok_bind, hsearch]
    exact (insertNew_safe h hapart).map _

theorem tryInsert_safe (h : U.Has c s) (key : K) : Safe (U.Has c) ((tryInsert key).runOn s) := by
  obtain ⟨m, h⟩ := h
  obtain ⟨b, x, hash, hsearch, -, -⟩ | ⟨hsearch, hapart⟩ := U.search h key
  · simp only [tryInsert, runOn_get_bind, runOn_ok_bind, hsearch]
    exact .ok _ ⟨m, h⟩
  · simp only [tryInsert, runOn_get_bind, runOn_ok_bind, hsearch, Option.isSome_none, Bool.false_eq_true, if_false]
    split
    · exact .ok _ ⟨m, h⟩
    · exact (insertNew_safe h hapart).map _

theorem update_safe (h : U.Has c s) (key : K) : Safe (U.Has c) ((update key).runOn s) := by
  obtain ⟨m, h⟩ := h
  obtain ⟨b, x, hash, hsearch, hx, hkey⟩ | ⟨hsearch, hapart⟩ := U.search h key
  · obtain ⟨t, m', hrun, hkeeps, -⟩ := U.replaceAt h hx hkey
    simp only [update, runOn_get_bind, runOn_ok_bind, hsearch, runOn_bind_ok hrun]
    exact .ok _ ⟨m', hkeeps⟩
  · simp only [update, runOn_get_bind, runOn_ok_bind, hsearch]
    exact (insertNew_safe h hapart).map _

theorem remove_safe (h : U.Has c s) (key : K) : Safe (U.Has c) ((remove key).runOn s) := by
  obtain ⟨m, h⟩ := h
  obtain ⟨b, x, hash, hsearch, hx, -⟩ | ⟨hsearch, -⟩ := U.search h key
  · obtain ⟨t, m', hrun, hkeeps, -⟩ := U.removeAt h hx
    simp only [remove, runOn_get_bind, runOn_ok_bind, hsearch, runOn_bind_ok hrun]
    exact .ok _ ⟨m', hkeeps⟩
  · simp only [remove, runOn_get_bind, runOn_ok_bind, hsearch]
    exact .ok _ ⟨m, h⟩

theorem removeAll_safe (h : U.Keeps c s m) :
    Safe (fun t => ∃ m', U.Keeps c t m' ∧ m'.length = 0) (removeAll.runOn s) := by
  rw [removeAll, runOn_modify]
  split
  · have hcount : s.table.count = 0 := by rwa [← beq_iff_eq]
    exact .ok _ ⟨m, h, (U.count (U.stores h)).symm.trans hcount⟩
  · exact .ok _ ⟨[], U.clear h, rfl⟩

theorem extend_safe (h : U.Has c s) (keys : List K) : Safe (U.Has c) ((extend keys).runOn s) :=
  Safe.forM (fun key _ hs => insert_safe hs key) keys h

/-! ### Batches -/

/-- One round: what was staged is inserted, and the producer asked again unless it is done. -/
theorem run_insertChunks {produce : Producer K ε (StateM S)} {remaining : Nat} (hpos : remaining ≠ 0) (s : FixedSet K)
    (i : S) : ((insertChunks produce remaining).runOn s).run i =
      match (produce (.vacant (min remaining Buffer.chunk))).run i with
      | (.error fault, i) => ((.error fault, s), i)
      | (.ok (buffer, outcome), i) =>
        match (extend buffer.staged).runOn s, outcome with
        | (.error fault, s), _ => ((.error fault, s), i)
        | (.ok _, s), .error e => ((.ok (.error e), s), i)
        | (.ok _, s), .ok () =>
          if buffer.size < min remaining Buffer.chunk then ((.ok (.ok ()), s), i)
          else ((insertChunks produce (remaining - buffer.size)).runOn s).run i := by
  rw [insertChunks, if_neg hpos, runOn_call_bind, StateT.run_bind]
  obtain ⟨reply, i'⟩ := (produce (.vacant (min remaining Buffer.chunk))).run i
  cases reply with
  | error fault => rfl
  | ok filled =>
    obtain ⟨buffer, outcome⟩ := filled
    apply (congrArg (StateT.run · i') (runOn_lift_bind (extend buffer.staged) _ s)).trans
    dsimp only
    obtain ⟨extended, t⟩ := (extend buffer.staged).runOn s
    cases extended with
    | error fault => rfl
    | ok _ =>
      cases outcome with
      | error e => rfl
      | ok _ =>
        dsimp only
        split <;> rfl

theorem insertChunks_safe {produce : Producer K ε (StateM S)} (hproduce : produce.Honest) (remaining : Nat) :
    ∀ {s : FixedSet K} (i : S), U.Has c s →
      Safe (U.Has c) (((insertChunks produce remaining).runOn s).run i).1 := by
  induction remaining using Nat.strongRecOn with
  | ind remaining ih =>
    intro s i h
    by_cases hzero : remaining = 0
    · rw [insertChunks, if_pos hzero]
      exact .ok _ h
    · have hhonest := hproduce (.vacant (min remaining Buffer.chunk)) i
      rw [run_insertChunks hzero]
      generalize (produce (.vacant (min remaining Buffer.chunk))).run i = asked at hhonest
      obtain ⟨reply, i'⟩ := asked
      cases reply with
      | error fault => exact .stop h (hhonest fault rfl)
      | ok filled =>
        obtain ⟨buffer, outcome⟩ := filled
        have hextend := extend_safe h buffer.staged
        dsimp only
        generalize (extend buffer.staged).runOn s = step at hextend
        obtain ⟨extended, t⟩ := step
        cases extended with
        | error fault => exact .stop hextend.after (hextend.contract fault rfl)
        | ok _ =>
          cases outcome with
          | error e => exact .ok _ hextend.after
          | ok _ =>
            dsimp only
            split
            · exact .ok _ hextend.after
            · -- The buffer is full, so at least one key was staged, and fewer remain.
              have hchunk : 0 < min remaining Buffer.chunk := Nat.lt_min.mpr ⟨Nat.pos_of_ne_zero hzero, by decide⟩
              exact ih _ (by omega) i' hextend.after

theorem run_insertBatch (produce : Producer K ε (StateM S)) (maximum : Nat) (s : FixedSet K) (i : S) :
    ((insertBatch maximum produce).runOn s).run i =
      if maximum = 0 then ((.ok (.ok ()), s), i)
      else if s.freeCapacity < maximum then ((.error .setFull, s), i)
      else ((insertChunks produce maximum).runOn s).run i := by
  rw [insertBatch]
  split
  · rfl
  · change ((if s.freeCapacity < maximum then throw .setFull else insertChunks produce maximum :
      ActionT (FixedSet K) (StateM S) (Except ε Unit)).runOn s).run i = _
    split <;> rfl

theorem insertBatch_safe {produce : Producer K ε (StateM S)} (hproduce : produce.Honest) (h : U.Has c s)
    (maximum : Nat) (i : S) : Safe (U.Has c) (((insertBatch maximum produce).runOn s).run i).1 := by
  rw [run_insertBatch]
  split
  · exact .ok _ h
  · split
    · exact .stop h rfl
    · exact insertChunks_safe hproduce maximum i h

end Upkeep

variable {hasher : Hasher K} {U : Upkeep hasher} {c : Nat} {s : FixedSet K}

theorem carryOut_safe (h : U.Has c s) (call : Call K ε) : Safe (U.Has c) ((carryOut call).runOn s) := by
  cases call with
  | member call =>
    cases call with
    | insert key => exact (Upkeep.insert_safe h key).map _
    | update key => exact (Upkeep.update_safe h key).map _
    | remove key => exact (Upkeep.remove_safe h key).map _
  | tryInsert key => exact (Upkeep.tryInsert_safe h key).map _
  | removeAll =>
    obtain ⟨m, h⟩ := h
    exact (Upkeep.removeAll_safe h).mono fun t ⟨m', hkeeps, _⟩ => ⟨m', hkeeps⟩
  | extend keys => exact Upkeep.extend_safe h keys
  | batch maximum stage => exact Safe.map (Upkeep.insertBatch_safe stage.honest h maximum 0) _

/-! ### Making sets -/

variable {seed : UInt64}

theorem vacant_made (U : Upkeep hasher) : Made (U.Keeps c · []) (vacant c hasher seed) where
  good s hs := U.vacant hs
  contract fault h := by
    by_cases hle : c ≤ Scale.limit
    · obtain ⟨s, hvacant, -⟩ := exists_keeps_nil hasher seed hle
      cases hvacant.symm.trans h
    · rw [vacant, Seating.vacant_of_limit_lt seed (Nat.not_le.mp hle)] at h
      cases h
      rfl

omit [BEq K] in
/-- Handing over the keys of a list never fails. -/
theorem honest_fillFrom : Producer.Honest (K := K) (ε := Empty) fun buffer => (do
    let (filled, _, rest) := buffer.fillFrom (← get)
    set rest
    return .ok (filled, .ok ()) : StateM (List K) _) := by
  rintro buffer i fault ⟨⟩

theorem ofList_made (U : Upkeep hasher) (source : List K) : Made (U.Has c) (ofList c hasher seed source) := by
  rw [ofList]
  refine (vacant_made U).bind fun s hs => ?_
  have hbatch := Upkeep.insertBatch_safe honest_fillFrom ⟨[], hs⟩ c source
  dsimp only
  split
  · next hrun =>
    rw [hrun] at hbatch
    exact .ok hbatch.after
  · next fault _ hrun =>
    rw [hrun] at hbatch
    exact .stop (hbatch.contract fault rfl)

end FixedSet

namespace GrowSet

open Growable

inductive Call (K ε : Type) where
  | member (call : MemberCall K)
  | extend (keys : List K) (hint : Nat)
  | batch (maximum : Nat) (stage : Staging K ε)
  | reserve (additional : Nat)
  | shrinkToFit
  | reset
  | clear

variable [BEq K]

def carryOut : Call K ε → Action (GrowSet K) Unit
  | .member (.insert key) => do let _ ← insert key
  | .member (.update key) => do let _ ← update key
  | .member (.remove key) => do let _ ← remove key
  | .extend keys hint => extend keys hint
  | .batch maximum stage => do
    let _ ← ActionT.ofStep fun g => ((insertBatch maximum stage.producer).runOn g |>.run 0).1
  | .reserve additional => Growable.reserve additional
  | .shrinkToFit => Growable.shrinkToFit
  | .reset => Growable.reset
  | .clear => clear

def MemberObeys (call : MemberCall K) (g t : GrowSet K) : Prop :=
  ∃ before, g.storage.contains call.key = .ok before ∧ Effect g t before call.leaves

/-- The policy for a call, in terms of the sets before and after it. -/
def Obeys : Call K ε → GrowSet K → GrowSet K → Prop
  | .member call => MemberObeys call
  | .extend _ hint => Extends hint
  | .batch maximum _ => fun g t => Provides (g.size + maximum) g t
  | .reserve additional => fun g t => t.size = g.size ∧ Provides (g.size + additional) g t
  | .shrinkToFit => Tightens
  | .reset => Resets
  | .clear => fun g t => t.size = 0 ∧ Stays g t

namespace Upkeep

variable {hasher : Hasher K} {U : FixedSet.Upkeep hasher} {g : GrowSet K} {m : List K}

theorem insert_safe (h : U.Kept g) (key : K) :
    Safe (fun t => U.Kept t ∧ MemberObeys (.insert key) g t) ((insert key).runOn g) := by
  obtain ⟨m, h⟩ := h
  obtain ⟨b, x, hash, hsearch, -, -⟩ | ⟨hsearch, hapart⟩ := U.search h.keeps key
  · simp only [insert, runOn_get_bind, runOn_ok_bind, hsearch]
    exact .ok _ ⟨⟨m, h⟩, true, FixedSet.contains_of_search hsearch, .refl g true⟩
  · simp only [insert, runOn_get_bind, runOn_ok_bind, hsearch]
    refine ((h.insertAbsent_safe hapart).mono ?_).map _
    rintro t ⟨hkept, heffect⟩
    exact ⟨hkept, false, FixedSet.contains_of_search hsearch, heffect⟩

theorem update_safe (h : U.Kept g) (key : K) :
    Safe (fun t => U.Kept t ∧ MemberObeys (.update key) g t) ((update key).runOn g) := by
  obtain ⟨m, h⟩ := h
  obtain ⟨b, x, hash, hsearch, hx, hkey⟩ | ⟨hsearch, hapart⟩ := U.search h.keeps key
  · obtain ⟨t, m', hrun, hkeeps, hlength⟩ := U.replaceAt h.keeps hx hkey
    have hreplaced : Safe (fun s => ∃ m', U.Keeps g.capacity s m' ∧ m'.length = m.length)
        ((FixedSet.replaceAt b key).runOn g.storage) := by
      rw [hrun]
      exact .ok _ ⟨m', hkeeps, hlength⟩
    simp only [update, runOn_get_bind, runOn_ok_bind, hsearch]
    refine ((h.onStorage_safe (P := (· = m.length)) hreplaced).mono ?_).map _
    rintro t ⟨hkept, hsize, hstays⟩
    exact ⟨hkept, true, FixedSet.contains_of_search hsearch, .kept (hsize.trans h.size.symm) hstays⟩
  · simp only [update, runOn_get_bind, runOn_ok_bind, hsearch]
    refine ((h.insertAbsent_safe hapart).mono ?_).map _
    rintro t ⟨hkept, heffect⟩
    exact ⟨hkept, false, FixedSet.contains_of_search hsearch, heffect⟩

theorem remove_safe (h : U.Kept g) (key : K) :
    Safe (fun t => U.Kept t ∧ MemberObeys (.remove key) g t) ((remove key).runOn g) := by
  obtain ⟨m, h⟩ := h
  obtain ⟨b, x, hash, hsearch, hx, -⟩ | ⟨hsearch, -⟩ := U.search h.keeps key
  · obtain ⟨t, hrun, hkept, hsheds⟩ := h.takeOut_safe rfl (U.removeAt h.keeps hx) (U.abandonAt h.keeps hx)
    simp only [remove, runOn_get_bind, runOn_ok_bind, hsearch, runOn_bind_ok hrun]
    exact .ok _ ⟨hkept, true, FixedSet.contains_of_search hsearch, .shed hsheds⟩
  · simp only [remove, runOn_get_bind, runOn_ok_bind, hsearch]
    exact .ok _ ⟨⟨m, h⟩, false, FixedSet.contains_of_search hsearch, .refl g false⟩

theorem extend_safe (h : U.Kept g) (keys : List K) (hint : Nat) :
    Safe (fun t => U.Kept t ∧ Extends hint g t) ((extend keys hint).runOn g) := by
  obtain ⟨m, h⟩ := h
  refine (h.reserve_safe hint).bind ?_ fun _ u _ hu => ?_
  · exact fun u ⟨hkept, hsize, hprovides⟩ => ⟨hkept, u, hsize, hprovides, .refl⟩
  · obtain ⟨hkept, hsize, hprovides⟩ := hu
    refine (Safe.forM (P := fun t => U.Kept t ∧ Climbs u t) ?_ keys ⟨hkept, .refl⟩).mono ?_
    · intro key v ⟨hv, hclimbs⟩
      exact (insert_safe hv key).mono fun t ⟨ht, _, _, heffect⟩ => ⟨ht, hclimbs.step heffect⟩
    · exact fun t ⟨ht, hclimbs⟩ => ⟨ht, u, hsize, hprovides, hclimbs⟩

theorem run_insertBatch (produce : Producer K ε (StateM S)) (maximum : Nat) (g : GrowSet K) (i : S) :
    ((insertBatch maximum produce).runOn g).run i =
      match (ensureFree maximum).runOn g with
      | (.error fault, u) => ((.error fault, u), i)
      | (.ok _, u) =>
        let (step, i) := ((FixedSet.insertBatch maximum produce).runOn u.storage).run i
        ((step.1, { u with storage := step.2 }), i) := by
  apply (congrArg (StateT.run · i) (runOn_lift_bind (ensureFree maximum) _ g)).trans
  obtain ⟨made, u⟩ := (ensureFree maximum).runOn g
  cases made <;> rfl

theorem insertBatch_safe {produce : Producer K ε (StateM S)} (hproduce : produce.Honest) (h : U.Kept g)
    (maximum : Nat) (i : S) : Safe (fun t => U.Kept t ∧ Provides (g.size + maximum) g t)
      (((insertBatch maximum produce).runOn g).run i).1 := by
  obtain ⟨m, h⟩ := h
  have hroom := h.ensureFree_safe maximum
  rw [run_insertBatch]
  generalize (ensureFree maximum).runOn g = step at hroom
  obtain ⟨made, u⟩ := step
  obtain ⟨⟨hheld, hprovides⟩, hcontract⟩ := hroom
  cases made with
  | error fault => exact .stop ⟨⟨m, hheld⟩, hprovides⟩ (hcontract fault rfl)
  | ok _ =>
    have hbatch := FixedSet.Upkeep.insertBatch_safe hproduce ⟨m, hheld.keeps⟩ maximum i
    have hstorage := hheld.storage_safe (P := fun _ => True) (hbatch.mono fun _ ⟨m', hm'⟩ => ⟨m', hm', trivial⟩)
    exact hstorage.mono fun t ⟨hkept, _, hstays⟩ => ⟨hkept, hprovides.trans_stays hstays⟩

end Upkeep

variable {hasher : Hasher K} {U : FixedSet.Upkeep hasher} {g : GrowSet K}

theorem carryOut_safe (h : U.Kept g) (call : Call K ε) :
    Safe (fun t => U.Kept t ∧ Obeys call g t) ((carryOut call).runOn g) := by
  cases call with
  | member call =>
    cases call with
    | insert key => exact (Upkeep.insert_safe h key).map _
    | update key => exact (Upkeep.update_safe h key).map _
    | remove key => exact (Upkeep.remove_safe h key).map _
  | extend keys hint => exact Upkeep.extend_safe h keys hint
  | batch maximum stage => exact Safe.map (Upkeep.insertBatch_safe stage.honest h maximum 0) _
  | reserve additional =>
    obtain ⟨m, h⟩ := h
    exact h.reserve_safe additional
  | shrinkToFit =>
    obtain ⟨m, h⟩ := h
    exact h.shrinkToFit_safe
  | reset =>
    obtain ⟨m, h⟩ := h
    exact h.reset_safe
  | clear =>
    obtain ⟨m, h⟩ := h
    exact h.onStorage_safe (P := (· = 0)) (FixedSet.Upkeep.removeAll_safe h.keeps)

/-! ### Making sets -/

variable {minimum : Nat} {seeds : Seeds}

theorem vacant_made (U : FixedSet.Upkeep hasher) :
    Made (fun g => U.Held g [] ∧ g.journal = []) (vacant minimum hasher seeds) :=
  Upkeep.vacant_made fun _ _ => FixedSet.vacant_made U

theorem ofList_made (U : FixedSet.Upkeep hasher) (keys : List K) (hint : Nat) :
    Made U.Kept (ofList hasher seeds keys hint) := by
  refine (vacant_made U).bind fun g h => ?_
  have hextend := Upkeep.extend_safe ⟨[], h.1⟩ keys hint
  split
  · next hrun =>
    rw [hrun] at hextend
    exact .ok hextend.after.1
  · next fault _ hrun =>
    rw [hrun] at hextend
    exact .stop (hextend.contract fault rfl)

end GrowSet

end RobinHood
