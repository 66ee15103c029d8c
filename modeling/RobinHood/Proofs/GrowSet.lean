import RobinHood.GrowSet
import RobinHood.Proofs.FixedSet
import RobinHood.Proofs.Growable.Policy

/-!
# Growing sets keep ledgers

A fixed set is lawful storage, so a growing set keeps the ledger of its members through every
replacement. Queries are answered by the storage.
-/

namespace RobinHood

open RobinHood.Action RobinHood.Ledger

variable {K : Type} [BEq K] [EquivBEq K]

instance : LawfulBacking (FixedSet K) K K where
  keyOf := id
  Keeps := FixedSet.Keeps
  Stores := FixedSet.Stores
  Holds s b x := s.slots.occupant b = some x
  refusal := .setFull
  stores h := h.stores
  perm h hperm := ⟨h.hashes, h.capacity, h.seating.orderly, h.seating.elements.trans hperm, h.seating.distinct.perm hperm⟩
  distinct h := h.distinct
  count h := by
    rw [← h.elements.length_eq]
    exact h.inStep.count
  capacity h := h.capacity
  length_le h := by
    rw [← h.elements.length_eq, ← h.capacity, ← h.inStep.count]
    exact h.inStep.count_le
  elements h := ⟨_, FixedSet.toList_intoIter h.inStep, h.elements⟩
  renew {hasher _ _ _ _} seed h hlimit := by
    obtain ⟨t, hvacant, hkeeps⟩ := FixedSet.exists_keeps_nil hasher seed hlimit
    rw [← h.hashes] at hvacant
    exact ⟨t, hvacant, hkeeps⟩
  insertNew h hnone := by
    have henters := h.insertNew hnone
    rw [← h.probeHash] at henters
    exact henters

namespace GrowSet

def answer : SetRequest K → Action (GrowSet K) (SetReply K)
  | .insert key => return .member (← insert key)
  | .update key => return .member (← update key)
  | .remove key => return .member (← remove key)
  | .get key => Growable.onStorage (FixedSet.answer (.get key))
  | .contains key => Growable.onStorage (FixedSet.answer (.contains key))
  | .locate key => Growable.onStorage (FixedSet.answer (.locate key))
  | .clear keeping => do
    if keeping then clear else Growable.reset
    return .done

/-- The set holds the members of the ledger, and its capacity is one of the growth sequence. -/
abbrev Keeps (hasher : Hasher K) (g : GrowSet K) (m : List K) : Prop :=
  Growable.Keeps hasher g m

variable {hasher : Hasher K} {g : GrowSet K} {m : List K}

theorem keeps_nil {minimum : Nat} {seeds : Seeds} (hvacant : vacant minimum hasher seeds = .ok g) :
    Keeps hasher g [] :=
  Growable.keeps_nil (fun _ _ _ => FixedSet.keeps_nil) hvacant

theorem Keeps.insertAbsent (h : Keeps hasher g m) {key : K} (hnone : member m key = none) :
    Enters (Keeps hasher) Growable.Holds Growable.room
      (Growable.insertAbsent key (g.storage.probeHash hasher key)) g m key := by
  have henters := Growable.Keeps.insertAbsent h hnone
  obtain ⟨c, -, hkeeps⟩ := h
  have hhash : g.placementHash key = g.storage.probeHash hasher key := hkeeps.probeHash key
  rwa [hhash] at henters

theorem Keeps.insert (h : Keeps hasher g m) (hlawful : hasher.Lawful) (key : K) :
    Alike (Keeps hasher) ((insert key).runOn g) (Ledger.insert Growable.room key m) := by
  obtain ⟨c, -, hkeeps⟩ := id h
  obtain ⟨b, x, hsearch, hx, hmember⟩ | ⟨hsearch, hmember⟩ := hkeeps.search hlawful key
  · simp only [GrowSet.insert, Ledger.insert, hmember, runOn_get_bind, runOn_ok_bind, hsearch]
    exact ⟨rfl, h⟩
  · simp only [GrowSet.insert, Ledger.insert, hmember, runOn_get_bind, runOn_ok_bind, hsearch]
    exact (h.insertAbsent hmember).alike h none

theorem Keeps.update (h : Keeps hasher g m) (hlawful : hasher.Lawful) (key : K) :
    Alike (Keeps hasher) ((update key).runOn g) (Ledger.update Growable.room key m) := by
  obtain ⟨c, hseq, hkeeps⟩ := id h
  obtain ⟨b, x, hsearch, hx, hmember⟩ | ⟨hsearch, hmember⟩ := hkeeps.search hlawful key
  · obtain ⟨t, hrun, hkeeps'⟩ := hkeeps.replaceAt hlawful hx (mem_of_lookup hmember).2
    have hreplaced : (Growable.onStorage (FixedSet.replaceAt b key)).runOn g = _ := Growable.runOn_onStorage hrun
    simp only [GrowSet.update, Ledger.update, hmember, runOn_get_bind, runOn_ok_bind, hsearch,
      runOn_bind_ok hreplaced]
    exact ⟨rfl, c, hseq, hkeeps'⟩
  · simp only [GrowSet.update, Ledger.update, hmember, runOn_get_bind, runOn_ok_bind, hsearch]
    exact (h.insertAbsent hmember).alike h none

theorem Keeps.remove (h : Keeps hasher g m) (hlawful : hasher.Lawful) (key : K) :
    Alike (Keeps hasher) ((remove key).runOn g) (Ledger.remove key m) := by
  obtain ⟨c, hseq, hkeeps⟩ := id h
  obtain ⟨b, x, hsearch, hx, hmember⟩ | ⟨hsearch, hmember⟩ := hkeeps.search hlawful key
  · have hkey := (mem_of_lookup hmember).2
    obtain ⟨t, hrun, hkeeps'⟩ := Growable.Keeps.takeOut h rfl (fun _ hstorage => hstorage.removeAt hx hkey)
      fun _ hstorage => hstorage.abandonAt hx hkey
    simp only [GrowSet.remove, Ledger.remove, hmember, runOn_get_bind, runOn_ok_bind, hsearch, runOn_bind_ok hrun]
    exact ⟨rfl, hkeeps'⟩
  · simp only [GrowSet.remove, Ledger.remove, hmember, runOn_get_bind, runOn_ok_bind, hsearch]
    exact ⟨rfl, by rwa [strike_of_lookup_none hmember]⟩

theorem Keeps.clear (h : Keeps hasher g m) : ∃ t, clear.runOn g = (.ok (), t) ∧ Keeps hasher t [] := by
  obtain ⟨c, hseq, hkeeps⟩ := h
  obtain ⟨t, hrun, hkeeps'⟩ := hkeeps.removeAll
  exact ⟨{ g with storage := t }, Growable.runOn_onStorage hrun, c, hseq, hkeeps'⟩

theorem Keeps.answer (h : Keeps hasher g m) (hlawful : hasher.Lawful) (request : SetRequest K) :
    Alike (Keeps hasher) ((answer request).runOn g) (answerSet Growable.room request m) := by
  have hquery : ∀ query : SetRequest K, (∀ room room', answerSet room query m = answerSet room' query m) →
      Alike (Keeps hasher) ((Growable.onStorage (FixedSet.answer query)).runOn g) (answerSet Growable.room query m) := by
    intro query hroom
    obtain ⟨c, hseq, hkeeps⟩ := h
    rw [hroom Growable.room ⟨c, .setFull⟩]
    exact Growable.alike_onStorage hseq (hkeeps.answer hlawful query)
  cases request with
  | insert key => exact (h.insert hlawful key).map _
  | update key => exact (h.update hlawful key).map _
  | remove key => exact (h.remove hlawful key).map _
  | get key => exact hquery (.get key) fun _ _ => rfl
  | contains key => exact hquery (.contains key) fun _ _ => rfl
  | locate key => exact hquery (.locate key) fun _ _ => rfl
  | clear keeping =>
    cases keeping with
    | true =>
      obtain ⟨t, hrun, hkeeps⟩ := h.clear
      simp only [GrowSet.answer, if_true, runOn_bind_ok hrun]
      exact ⟨rfl, hkeeps⟩
    | false =>
      obtain ⟨t, hrun, hkeeps⟩ := Growable.Keeps.reset h
      simp only [GrowSet.answer, Bool.false_eq_true, if_false, runOn_bind_ok hrun]
      exact ⟨rfl, hkeeps⟩

/-! ### Requests -/

inductive Request (K : Type) where
  | plain (request : SetRequest K)
  | extend (keys : List K) (hint : Nat)
  | reserve (additional : Nat)
  | shrinkToFit

def respond : Request K → GrowSet K → Except Fault (SetReply K) × GrowSet K
  | .plain request, g => (GrowSet.answer request).runOn g
  | .extend keys hint, g => reply (fun _ => .done) ((GrowSet.extend keys hint).runOn g)
  | .reserve additional, g => reply (fun _ => .done) ((Growable.reserve additional).runOn g)
  | .shrinkToFit, g => reply (fun _ => .done) (Growable.shrinkToFit.runOn g)

/-- What is expected of a set that grows as long as there is a larger capacity. Its capacity is not part
of what it keeps. -/
def expected : Request K → List K → Except Fault (SetReply K) × List K
  | .plain request, m => answerSet Growable.room request m
  | .extend keys hint, m =>
    reply (fun _ => .done) (andThen (Ledger.reserve Growable.room hint m) fun _ =>
      each (Ledger.insert Growable.room) keys)
  | .reserve additional, m => reply (fun _ => .done) (Ledger.reserve Growable.room additional m)
  | .shrinkToFit, m => (.ok .done, m)

theorem Keeps.extend (h : Keeps hasher g m) (hlawful : hasher.Lawful) (keys : List K) (hint : Nat) :
    Alike (Keeps hasher) ((extend keys hint).runOn g)
      (andThen (Ledger.reserve Growable.room hint m) fun _ => each (Ledger.insert Growable.room) keys) :=
  (Growable.Keeps.reserve h hint).andThen fun _ _ _ hroom =>
    forM_alike (fun key _ _ hkeeps => Keeps.insert hkeeps hlawful key) keys hroom

theorem simulates (hlawful : hasher.Lawful) : Simulates (Keeps hasher) respond expected := by
  intro request g m h
  cases request with
  | plain request => exact h.answer hlawful request
  | extend keys hint => exact (h.extend hlawful keys hint).reply _
  | reserve additional => exact (Growable.Keeps.reserve h additional).reply _
  | shrinkToFit =>
    obtain ⟨t, hrun, hkeeps⟩ := Growable.Keeps.shrinkToFit h
    simp only [respond, hrun]
    exact ⟨rfl, hkeeps⟩

/-! ### What can be seen of a set -/

structure Shows (g : GrowSet K) (m : List K) : Prop where
  members : ∃ listed, g.storage.iter.toList = .ok listed ∧ listed.Perm m
  distinct : Distinct id m
  size : g.size = m.length

theorem Keeps.shows (h : Keeps hasher g m) : Shows g m := by
  have hsize := Growable.Keeps.size h
  obtain ⟨c, -, hkeeps⟩ := h
  have hshows := FixedSet.Keeps.shows hkeeps
  exact ⟨hshows.members, hshows.distinct, hsize⟩

end GrowSet

end RobinHood
