import RobinHood.FixedSet.Batch
import RobinHood.Proofs.Action
import RobinHood.Proofs.Ledger.Sets
import RobinHood.Proofs.Seating.Contents
import RobinHood.Proofs.Traversal

/-!
# Fixed sets keep ledgers
-/

namespace RobinHood.FixedSet

open RobinHood.Action RobinHood.Ledger

variable {K : Type} [BEq K]

def answer : SetRequest K → Action (FixedSet K) (SetReply K)
  | .insert key => return .member (← insert key)
  | .update key => return .member (← update key)
  | .remove key => return .member (← remove key)
  | .get key => do return .member (← (← get).get? key)
  | .contains key => do return .flag (← (← get).contains key)
  | .locate key => do
    let s ← get
    match ← s.indexOf? key with
    | some index => return .member (some (← s.memberAt index))
    | none => return .member none
  | .clear _ => do
    removeAll
    return .done

/-! ### Running the changes -/

section Runs

omit [BEq K]

variable {s : FixedSet K} {key x : K} {b : Nat} {hash : UInt64}

theorem runOn_insertNew {seated : Seated K} (hroom : s.table.count ≠ s.table.capacity)
    (hok : s.seat s.hashOf key hash = .ok seated) :
    (insertNew key hash).runOn s = (.ok seated.landed, { s with toSeating := seated.seating }) := by
  have hfull : s.isFull = false := beq_eq_false_iff_ne.mpr hroom
  simp only [insertNew, runOn_get_bind, runOn_ok_bind, runOn_set_bind, hfull, hok, Bool.false_eq_true, if_false]
  rfl

theorem runOn_insertNew_full (hfull : s.table.count = s.table.capacity) :
    (insertNew key hash).runOn s = (.error .setFull, s) := by
  have hfull : s.isFull = true := beq_iff_eq.mpr hfull
  simp only [insertNew, runOn_get_bind, runOn_throw_bind, hfull, if_true]

theorem runOn_removeAt {unseated : Unseated K} (hok : s.unseat s.hashOf b = .ok unseated) :
    (removeAt b).runOn s = (.ok unseated.element, { s with toSeating := unseated.seating }) := by
  simp only [removeAt, runOn_get_bind, runOn_ok_bind, runOn_set_bind, hok]
  rfl

theorem runOn_abandonAt {unseated : Unseated K} (hok : s.abandon b = .ok unseated) :
    (abandonAt b).runOn s = (.ok unseated.element, { s with toSeating := unseated.seating }) := by
  simp only [abandonAt, runOn_get_bind, runOn_ok_bind, runOn_set_bind, hok]
  rfl

theorem runOn_replaceAt (hx : s.slots.occupant b = some x) (key : K) :
    (replaceAt b key).runOn s = (.ok x, { s with slots := s.slots.assign b (some key) }) := by
  simp only [replaceAt, runOn_get_bind, runOn_ok_bind, runOn_set_bind, Slots.exchange_of_occupant hx]
  rfl

theorem visits_iter (h : s.toSeating.InStep) :
    Visits Cursor.next? Cursor.bucket? Cursor.remaining s.iter s.slots.placements := by
  have hvisits := h.visits_cursor (g := fun _ x => x) fun _ _ => Slots.get_of_occupant
  rwa [show (fun visit : Nat × K => (visit.1, visit.2)) = id from rfl, List.map_id] at hvisits

theorem visits_intoIter (h : s.toSeating.InStep) :
    Visits OwningCursor.next? OwningCursor.bucket? OwningCursor.remaining s.intoIter s.slots.placements := by
  refine h.visits_owningCursor s.slots (fun bucket slots => slots.take bucket)
    (fun start slots => ∀ i, start ≤ i → slots.occupant i = s.slots.occupant i) (fun _ _ => rfl) ?_
  intro start b x slots hholds hle hx
  rw [← hholds b hle] at hx
  refine ⟨slots.assign b none, Slots.take_of_occupant hx, fun i hi => ?_⟩
  rw [Slots.occupant_assign (Slots.lt_size_of_occupant hx), Function.update_of_ne (by omega)]
  exact hholds i (by omega)

theorem visits_indices (h : s.toSeating.InStep) :
    Visits Cursor.next? Cursor.bucket? Cursor.remaining s.indices
      (s.slots.placements.map fun visit => (visit.1, visit.1)) :=
  h.visits_cursor (g := fun b _ => b) fun _ _ _ => rfl

theorem yields_iter (h : s.toSeating.InStep) : Yields Cursor.next? s.iter s.slots.elements := by
  rw [← Slots.map_snd_placements]
  exact (visits_iter h).yields

theorem yields_intoIter (h : s.toSeating.InStep) : Yields OwningCursor.next? s.intoIter s.slots.elements := by
  rw [← Slots.map_snd_placements]
  exact (visits_intoIter h).yields

theorem toList_iter (h : s.toSeating.InStep) : s.iter.toList = .ok s.slots.elements :=
  (yields_iter h).toList_cursor h.length_le_endBucket

theorem toList_intoIter (h : s.toSeating.InStep) : s.intoIter.toList = .ok s.slots.elements :=
  (yields_intoIter h).toList_owningCursor h.length_le_endBucket

end Runs

theorem contains_of_search {s : FixedSet K} {key : K} {probe : Probe} (h : s.search key = .ok probe) :
    s.contains key = .ok probe.bucket.isSome := by
  rw [contains, h]
  rfl

/-! ### Keeping ledgers -/

/-- The set holds the members of the ledger where searches find them. -/
structure Keeps (hasher : Hasher K) (c : Nat) (s : FixedSet K) (m : List K) : Prop where
  hashes : s.hasher = hasher
  capacity : s.table.capacity = c
  seating : s.toSeating.Keeps id hasher m

/-- The set holds the members of the ledger, but searches may miss them. -/
structure Stores (hasher : Hasher K) (c : Nat) (s : FixedSet K) (m : List K) : Prop where
  hashes : s.hasher = hasher
  capacity : s.table.capacity = c
  inStep : s.toSeating.InStep
  elements : s.slots.elements.Perm m
  distinct : Distinct id m

variable {hasher : Hasher K} {c : Nat} {s : FixedSet K} {m : List K} {key x : K} {b : Nat}

theorem Keeps.stores (h : Keeps hasher c s m) : Stores hasher c s m :=
  ⟨h.hashes, h.capacity, h.seating.orderly.toInStep, h.seating.elements, h.seating.distinct⟩

theorem keeps_nil {seed : UInt64} (hvacant : vacant c hasher seed = .ok s) : Keeps hasher c s [] := by
  rw [vacant] at hvacant
  cases hseating : Seating.vacant c seed with
  | error fault =>
    rw [hseating] at hvacant
    cases hvacant
  | ok seating =>
    rw [hseating] at hvacant
    obtain rfl : s = ⟨seating, hasher⟩ := (Except.ok.inj hvacant).symm
    obtain ⟨-, -, hcap⟩ := Seating.vacant_eq_ok hseating fun _ => 0
    exact ⟨rfl, hcap, Seating.keeps_nil hseating⟩

theorem exists_keeps_nil (hasher : Hasher K) (seed : UInt64) (hle : c ≤ Scale.limit) :
    ∃ s, vacant c hasher seed = .ok s ∧ Keeps hasher c s [] := by
  obtain ⟨seating, hseating⟩ := Seating.exists_vacant seed hle
  have hvacant : vacant c hasher seed = .ok ⟨seating, hasher⟩ := by
    rw [vacant, hseating]
    rfl
  exact ⟨_, hvacant, keeps_nil hvacant⟩

/-- The hash that a growing set would place a key with is the one that a search answers. -/
theorem Keeps.probeHash (h : Keeps hasher c s m) (key : K) :
    (if s.table.isDense then 0 else s.hashOf key) = s.probeHash hasher key := by
  rw [Seating.probeHash, FixedSet.hashOf, h.hashes]

theorem Keeps.hashOf (h : Keeps hasher c s m) : s.hashOf = Seating.entryHash id hasher s.toSeating := by
  rw [← h.hashes]
  rfl

variable [EquivBEq K]

theorem Keeps.search (h : Keeps hasher c s m) (hlawful : hasher.Lawful) (key : K) :
    (∃ b x, s.search key = .ok ⟨some b, s.probeHash hasher key⟩ ∧ s.slots.occupant b = some x ∧
      member m key = some x) ∨
    (s.search key = .ok ⟨none, s.probeHash hasher key⟩ ∧ member m key = none) := by
  rw [FixedSet.search, h.hashOf]
  exact h.seating.find hlawful key

theorem Keeps.insertNew (h : Keeps hasher c s m) (hnone : member m key = none) :
    Enters (Keeps hasher c) (fun t b x => t.slots.occupant b = some x) ⟨c, .setFull⟩
      (insertNew key (s.probeHash hasher key)) s m key := by
  have hle := h.seating.length_le
  have hcount := h.seating.count
  have hcap := h.capacity
  rw [Enters]
  by_cases hroom : m.length < c
  · rw [if_pos hroom]
    obtain ⟨seated, hok, hseats, hkeeps⟩ := h.seating.seat (by rwa [h.capacity]) hnone
    rw [← h.hashOf, id_eq] at hok
    exact ⟨_, _, runOn_insertNew (by omega) hok, ⟨h.hashes, hseats.like.capacity.trans h.capacity, hkeeps⟩,
      hseats.landed⟩
  · rw [if_neg hroom]
    exact runOn_insertNew_full (by omega)

theorem Keeps.removeAt (h : Keeps hasher c s m) (hx : s.slots.occupant b = some x)
    (hkey : (x == key) = true) :
    ∃ t, (removeAt b).runOn s = (.ok x, t) ∧ Keeps hasher c t (strike id m key) := by
  obtain ⟨unseated, hok, hunseats, rfl, hkeeps⟩ := h.seating.unseat hx hkey
  rw [← h.hashOf] at hok
  exact ⟨_, runOn_removeAt hok, h.hashes, hunseats.like.capacity.trans h.capacity, hkeeps⟩

theorem Keeps.abandonAt (h : Keeps hasher c s m) (hx : s.slots.occupant b = some x)
    (hkey : (x == key) = true) :
    ∃ t, (abandonAt b).runOn s = (.ok x, t) ∧ Stores hasher c t (strike id m key) := by
  obtain ⟨unseated, hok, hunseats, rfl, hperm⟩ := h.seating.abandon hx hkey
  exact ⟨_, runOn_abandonAt hok, h.hashes, hunseats.like.capacity.trans h.capacity, hunseats.inStep, hperm,
    h.seating.distinct.strike key⟩

theorem Keeps.replaceAt (h : Keeps hasher c s m) (hlawful : hasher.Lawful)
    (hx : s.slots.occupant b = some x) (hkey : (x == key) = true) :
    ∃ t, (replaceAt b key).runOn s = (.ok x, t) ∧ Keeps hasher c t (amend id (fun _ => key) m key) :=
  ⟨_, runOn_replaceAt hx key, h.hashes, h.capacity, h.seating.amend hlawful hx hkey fun _ hy => BEq.symm hy⟩

/-! ### Operations -/

theorem Keeps.insert (h : Keeps hasher c s m) (hlawful : hasher.Lawful) (key : K) :
    Alike (Keeps hasher c) ((insert key).runOn s) (Ledger.insert ⟨c, .setFull⟩ key m) := by
  obtain ⟨b, x, hsearch, hx, hmember⟩ | ⟨hsearch, hmember⟩ := h.search hlawful key
  · simp only [FixedSet.insert, Ledger.insert, hmember, runOn_get_bind, runOn_ok_bind, hsearch]
    exact ⟨rfl, h⟩
  · simp only [FixedSet.insert, Ledger.insert, hmember, runOn_get_bind, runOn_ok_bind, hsearch]
    exact (h.insertNew hmember).alike h none

theorem Keeps.update (h : Keeps hasher c s m) (hlawful : hasher.Lawful) (key : K) :
    Alike (Keeps hasher c) ((update key).runOn s) (Ledger.update ⟨c, .setFull⟩ key m) := by
  obtain ⟨b, x, hsearch, hx, hmember⟩ | ⟨hsearch, hmember⟩ := h.search hlawful key
  · obtain ⟨t, hrun, hkeeps⟩ := h.replaceAt hlawful hx (mem_of_lookup hmember).2
    simp only [FixedSet.update, Ledger.update, hmember, runOn_get_bind, runOn_ok_bind, hsearch, runOn_bind_ok hrun]
    exact ⟨rfl, hkeeps⟩
  · simp only [FixedSet.update, Ledger.update, hmember, runOn_get_bind, runOn_ok_bind, hsearch]
    exact (h.insertNew hmember).alike h none

theorem Keeps.remove (h : Keeps hasher c s m) (hlawful : hasher.Lawful) (key : K) :
    Alike (Keeps hasher c) ((remove key).runOn s) (Ledger.remove key m) := by
  obtain ⟨b, x, hsearch, hx, hmember⟩ | ⟨hsearch, hmember⟩ := h.search hlawful key
  · obtain ⟨t, hrun, hkeeps⟩ := h.removeAt hx (mem_of_lookup hmember).2
    simp only [FixedSet.remove, Ledger.remove, hmember, runOn_get_bind, runOn_ok_bind, hsearch, runOn_bind_ok hrun]
    exact ⟨rfl, hkeeps⟩
  · simp only [FixedSet.remove, Ledger.remove, hmember, runOn_get_bind, runOn_ok_bind, hsearch]
    exact ⟨rfl, by rwa [strike_of_lookup_none hmember]⟩

theorem Keeps.get? (h : Keeps hasher c s m) (hlawful : hasher.Lawful) (key : K) :
    s.get? key = .ok (member m key) := by
  obtain ⟨b, x, hsearch, hx, hmember⟩ | ⟨hsearch, hmember⟩ := h.search hlawful key
  · simp only [FixedSet.get?, hsearch, hmember, bind, Except.bind, Option.mapM_some, Slots.get_of_occupant hx]
    rfl
  · simp only [FixedSet.get?, hsearch, hmember, bind, Except.bind, Option.mapM_none]
    rfl

theorem Keeps.contains (h : Keeps hasher c s m) (hlawful : hasher.Lawful) (key : K) :
    s.contains key = .ok (member m key).isSome := by
  obtain ⟨b, x, hsearch, -, hmember⟩ | ⟨hsearch, hmember⟩ := h.search hlawful key
  · rw [contains_of_search hsearch, hmember]
    rfl
  · rw [contains_of_search hsearch, hmember]
    rfl

theorem Keeps.indexOf? (h : Keeps hasher c s m) (hlawful : hasher.Lawful) (key : K) :
    (∃ index x, s.indexOf? key = .ok (some index) ∧ s.memberAt index = .ok x ∧ member m key = some x) ∨
    (s.indexOf? key = .ok none ∧ member m key = none) := by
  obtain ⟨b, x, hsearch, hx, hmember⟩ | ⟨hsearch, hmember⟩ := h.search hlawful key
  · left
    refine ⟨b, x, ?_, ?_, hmember⟩
    · simp only [FixedSet.indexOf?, hsearch, bind, Except.bind]
      rfl
    · have hoccupied : s.table.isOccupied b = true := by
        rw [h.seating.orderly.occupied, hx]
        rfl
      rw [memberAt, checkIndex, if_pos hoccupied]
      exact Slots.get_of_occupant hx
  · right
    refine ⟨?_, hmember⟩
    simp only [FixedSet.indexOf?, hsearch, bind, Except.bind]
    rfl

omit [EquivBEq K] in
theorem Keeps.removeAll (h : Keeps hasher c s m) :
    ∃ t, removeAll.runOn s = (.ok (), t) ∧ Keeps hasher c t [] := by
  refine ⟨_, runOn_modify _ s, ?_⟩
  by_cases hempty : s.isEmpty = true
  · rw [if_pos hempty]
    rw [isEmpty, h.seating.isEmpty, List.isEmpty_iff] at hempty
    rwa [← hempty]
  · rw [if_neg hempty]
    exact ⟨h.hashes, (Table.capacity_clear _).trans h.capacity, h.seating.clear⟩

theorem Keeps.extend (h : Keeps hasher c s m) (hlawful : hasher.Lawful) (keys : List K) :
    Alike (Keeps hasher c) ((extend keys).runOn s) (each (Ledger.insert ⟨c, .setFull⟩) keys m) :=
  forM_alike (fun key _ _ hkeeps => hkeeps.insert hlawful key) keys h

/-! ### Requests -/

theorem Keeps.answer (h : Keeps hasher c s m) (hlawful : hasher.Lawful) (request : SetRequest K) :
    Alike (Keeps hasher c) ((answer request).runOn s) (answerSet ⟨c, .setFull⟩ request m) := by
  cases request with
  | insert key => exact (h.insert hlawful key).map _
  | update key => exact (h.update hlawful key).map _
  | remove key => exact (h.remove hlawful key).map _
  | get key =>
    simp only [FixedSet.answer, runOn_get_bind, h.get? hlawful key, runOn_ok_bind]
    exact ⟨rfl, h⟩
  | contains key =>
    simp only [FixedSet.answer, runOn_get_bind, h.contains hlawful key, runOn_ok_bind]
    exact ⟨rfl, h⟩
  | locate key =>
    obtain ⟨index, x, hindex, hat, hmember⟩ | ⟨hindex, hmember⟩ := h.indexOf? hlawful key
    · simp only [FixedSet.answer, runOn_get_bind, hindex, hat, runOn_ok_bind, answerSet, hmember]
      exact ⟨rfl, h⟩
    · simp only [FixedSet.answer, runOn_get_bind, hindex, runOn_ok_bind, answerSet, hmember]
      exact ⟨rfl, h⟩
  | clear keeping =>
    obtain ⟨t, hrun, hkeeps⟩ := h.removeAll
    simp only [FixedSet.answer, runOn_bind_ok hrun]
    exact ⟨rfl, hkeeps⟩

inductive Request (K : Type) where
  | plain (request : SetRequest K)
  | extend (keys : List K)

def respond : Request K → FixedSet K → Except Fault (SetReply K) × FixedSet K
  | .plain request, s => (FixedSet.answer request).runOn s
  | .extend keys, s => reply (fun _ => .done) ((FixedSet.extend keys).runOn s)

def expected (c : Nat) : Request K → List K → Except Fault (SetReply K) × List K
  | .plain request, m => answerSet ⟨c, .setFull⟩ request m
  | .extend keys, m => reply (fun _ => .done) (each (Ledger.insert ⟨c, .setFull⟩) keys m)

theorem simulates (hlawful : hasher.Lawful) (c : Nat) : Simulates (Keeps hasher c) respond (expected c) := by
  intro request s m h
  cases request with
  | plain request => exact h.answer hlawful request
  | extend keys => exact (h.extend hlawful keys).reply _

/-! ### What can be seen of a set -/

/-- The set lists the members of the ledger, in some order, no two of them equal, and reports their number and
how many more fit. -/
structure Shows (c : Nat) (s : FixedSet K) (m : List K) : Prop where
  members : ∃ listed, s.iter.toList = .ok listed ∧ listed.Perm m
  distinct : Distinct id m
  size : s.size = m.length
  size_le : s.size ≤ c
  capacity : s.capacity = c
  freeCapacity : s.freeCapacity = c - m.length
  isFull : s.isFull = true ↔ m.length = c

omit [EquivBEq K] in
theorem Keeps.shows (h : Keeps hasher c s m) : Shows c s m where
  members := ⟨_, toList_iter h.seating.orderly.toInStep, h.seating.elements⟩
  distinct := h.seating.distinct
  size := h.seating.count
  size_le := by
    rw [← h.capacity]
    exact h.seating.orderly.count_le
  capacity := h.capacity
  freeCapacity := by rw [freeCapacity, Table.freeCapacity, h.capacity, h.seating.count]
  isFull := by rw [isFull, h.seating.isFull, h.capacity, beq_iff_eq]

/-! ### Comparing -/

def SameKeys (s t : FixedSet K) : Prop :=
  ∀ key, s.contains key = .ok true ↔ t.contains key = .ok true

variable {hasher' : Hasher K} {c' : Nat} {t : FixedSet K} {m' : List K}

theorem Keeps.equals_eq (hs : Keeps hasher c s m) (ht : Keeps hasher' c' t m') (hlawful : hasher'.Lawful) :
    s.equals (.other t) = .ok (decide (m.length = m'.length) && m.all fun key => (member m' key).isSome) := by
  have hcontains : t.contains = fun key => pure (member m' key).isSome := funext (ht.contains hlawful)
  have hall : s.slots.elements.allM t.contains = .ok (m.all fun key => (member m' key).isSome) := by
    rw [hcontains, List.allM_pure, hs.seating.elements.all_eq]
    rfl
  have hsize : s.size = m.length := hs.seating.count
  have hsize' : t.size = m'.length := ht.seating.count
  rw [FixedSet.equals, hsize, hsize', toList_iter hs.seating.orderly.toInStep]
  by_cases hlength : m.length = m'.length
  · rw [if_pos hlength, decide_eq_true hlength, Bool.true_and]
    exact hall
  · rw [if_neg hlength, decide_eq_false hlength]
    rfl

theorem Keeps.sameKeys_iff (hs : Keeps hasher c s m) (ht : Keeps hasher' c' t m') (hlawful : hasher.Lawful)
    (hlawful' : hasher'.Lawful) : s.SameKeys t ↔ ∀ key, (member m key).isSome = (member m' key).isSome := by
  apply forall_congr'
  intro key
  rw [hs.contains hlawful, ht.contains hlawful', Except.ok.injEq, Except.ok.injEq]
  exact Bool.eq_iff_iff.symm

/-- Sets are compared by their keys alone, whatever their capacities, hashers and seeds. -/
theorem Keeps.exists_equals (hs : Keeps hasher c s m) (ht : Keeps hasher' c' t m') (hlawful : hasher.Lawful)
    (hlawful' : hasher'.Lawful) : ∃ same, s.equals (.other t) = .ok same ∧ (same = true ↔ s.SameKeys t) := by
  refine ⟨_, hs.equals_eq ht hlawful', ?_⟩
  rw [hs.sameKeys_iff ht hlawful hlawful', Bool.and_eq_true, decide_eq_true_iff, List.all_eq_true]
  exact (hs.seating.distinct.same_keys_iff ht.seating.distinct).symm

theorem Keeps.equals (hs : Keeps hasher c s m) (ht : Keeps hasher' c' t m) (hlawful : hasher'.Lawful) :
    s.equals (.other t) = .ok true := by
  have hall : (m.all fun key => (member m key).isSome) = true :=
    List.all_eq_true.mpr fun key hkey => isSome_lookup_iff.mpr ⟨key, hkey, BEq.rfl⟩
  rw [hs.equals_eq ht hlawful, hall, decide_eq_true rfl]
  rfl

end RobinHood.FixedSet
