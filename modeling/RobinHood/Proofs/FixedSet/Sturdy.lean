import RobinHood.Proofs.FixedSet

/-!
# Sets that answer every query

A set whose table and slots are in step can be asked anything: searches, traversals that are given up at any
point, digests and texts come to an end with an answer, and an index is either that of a current member or
out of bounds.
-/

namespace RobinHood

def Answered {α : Type} (answer : Except Fault α) : Prop :=
  ∃ x, answer = .ok x

theorem Yields.answered {σ α : Type} {next? : σ → Except Fault (Option (α × σ))} {s : σ} {xs : List α}
    (h : Yields next? s xs) (n : Nat) : Answered (RobinHood.takeUpTo next? n s) := by
  obtain ⟨t, ht, -⟩ := h.takeUpTo n
  exact ⟨_, ht⟩

namespace FixedSet

variable {K : Type} [BEq K]

/-- Slots hold elements where the table says so, and no query finds fault with that. -/
structure Sturdy (s : FixedSet K) : Prop where
  size_slots : s.slots.size = s.table.bucketCount
  occupied : ∀ bucket, (s.slots.occupant bucket).isSome = s.table.isOccupied bucket
  search : ∀ key, ∃ probe, s.search key = .ok probe ∧
    ∀ index, probe.bucket = some index → ∃ x, s.slots.occupant index = some x ∧ (x == key) = true
  contains : ∀ key, Answered (s.contains key)
  get : ∀ key, Answered (s.get? key)
  locate : ∀ key, Answered (s.indexOf? key)
  /-- An index of an occupied bucket, whoever it was made for, addresses the occupant. -/
  deref : ∀ index x, s.slots.occupant index = some x → s.memberAt index = .ok x
  /-- The next index is that of the next occupied bucket, or the end index. -/
  advance : ∀ index, s.table.isOccupied index = true → ∃ next, s.indexAfter index = .ok next ∧ index < next ∧
    (∀ i, index < i → i < next → s.table.isOccupied i = false) ∧
    (s.table.isOccupied next = true ∨ next = s.endIndex)
  outOfBounds : ∀ index, s.table.isOccupied index = false →
    s.memberAt index = .error .indexOutOfBounds ∧ s.indexAfter index = .error .indexOutOfBounds
  walk : Answered s.walk
  iter : ∀ n, Answered (s.iter.take n)
  indices : ∀ n, Answered (s.indices.take n)
  intoIter : ∀ n, Answered (s.intoIter.take n)
  unorderedHash : ∀ [Digestible K] (seed : UInt64), Answered (s.unorderedHash seed)
  digestInto : ∀ [Digestible K] (digest : Digest), Answered (s.digestInto digest)
  shownMembers : ∀ [Shown K], Answered s.shownMembers

variable {s : FixedSet K}

theorem exists_search (h : s.toSeating.InStep) (key : K) : ∃ probe, s.search key = .ok probe ∧
    ∀ index, probe.bucket = some index → ∃ x, s.slots.occupant index = some x ∧ (x == key) = true := by
  obtain ⟨found, hfind, hfinds⟩ := h.find (s.hashOf key) (· == key)
  exact ⟨_, hfind, hfinds⟩

omit [BEq K]

theorem indexAfter_of_occupied {index : Nat} (hoccupied : s.table.isOccupied index = true) :
    ∃ next, s.indexAfter index = .ok next ∧ index < next ∧
      (∀ i, index < i → i < next → s.table.isOccupied i = false) ∧
      (s.table.isOccupied next = true ∨ next = s.endIndex) := by
  have hafter : s.indexAfter index = .ok ((s.table.firstOccupiedFrom (index + 1)).getD s.table.endBucket) := by
    rw [indexAfter, checkIndex, if_pos hoccupied]
    rfl
  have hfirst := s.table.firstOccupiedFrom_first (index + 1)
  refine ⟨_, hafter, ?_⟩
  cases hfound : s.table.firstOccupiedFrom (index + 1) with
  | none =>
    rw [hfound] at hfirst
    exact ⟨s.table.lt_endBucket_of_isOccupied hoccupied, fun i hi _ => hfirst i hi, .inr rfl⟩
  | some next =>
    rw [hfound] at hfirst
    obtain ⟨hle, hnext, hmin⟩ := hfirst
    exact ⟨hle, hmin, .inl hnext⟩

theorem checkIndex_of_free {index : Nat} (hfree : s.table.isOccupied index = false) :
    s.checkIndex index = .error .indexOutOfBounds := by
  rw [checkIndex, if_neg (by rw [hfree]; exact Bool.false_ne_true)]
  rfl

theorem walkFrom_answered (fuel : Nat) : ∀ {index : Nat},
    s.table.isOccupied index = true ∨ index = s.endIndex → Answered (s.walkFrom fuel index) := by
  induction fuel with
  | zero => exact fun _ => ⟨[], rfl⟩
  | succ fuel ih =>
    intro index hindex
    rw [walkFrom]
    split
    · exact ⟨[], rfl⟩
    · next hne =>
      obtain ⟨next, hnext, -, -, hends⟩ := indexAfter_of_occupied (hindex.resolve_right hne)
      obtain ⟨rest, hrest⟩ := ih hends
      exact ⟨index :: rest, by rw [hnext]; simp [bind, Except.bind, hrest, pure, Except.pure]⟩

theorem startIndex_ends (s : FixedSet K) : s.table.isOccupied s.startIndex = true ∨ s.startIndex = s.endIndex := by
  have hfirst := s.table.firstOccupiedFrom_first 0
  rw [startIndex]
  cases hfound : s.table.firstOccupiedFrom 0 with
  | none => exact .inr rfl
  | some start =>
    rw [hfound] at hfirst
    exact .inl hfirst.2.1

theorem unorderedHash_answered (h : s.toSeating.InStep) [Digestible K] (seed : UInt64) :
    Answered (s.unorderedHash seed) :=
  ⟨_, by rw [unorderedHash, toList_iter h]; rfl⟩

variable [BEq K]

theorem sturdy_of_inStep (h : s.toSeating.InStep) : s.Sturdy where
  size_slots := h.size_slots
  occupied bucket := (h.occupied bucket).symm
  search := exists_search h
  contains key := by
    obtain ⟨probe, hsearch, -⟩ := exists_search h key
    exact ⟨_, contains_of_search hsearch⟩
  get key := by
    obtain ⟨⟨found, hash⟩, hsearch, hfound⟩ := exists_search h key
    rw [get?, hsearch]
    cases found with
    | none => exact ⟨none, rfl⟩
    | some index =>
      obtain ⟨x, hx, -⟩ := hfound index rfl
      exact ⟨some x, by simp [bind, Except.bind, Slots.get_of_occupant hx]⟩
  locate key := by
    obtain ⟨probe, hsearch, -⟩ := exists_search h key
    exact ⟨_, by rw [indexOf?, hsearch]; rfl⟩
  deref index x hx := by
    have hoccupied : s.table.isOccupied index = true := by rw [h.occupied, hx]; rfl
    rw [memberAt, checkIndex, if_pos hoccupied]
    exact Slots.get_of_occupant hx
  advance _ := indexAfter_of_occupied
  outOfBounds index hfree := by
    rw [memberAt, indexAfter, checkIndex_of_free hfree]
    exact ⟨rfl, rfl⟩
  walk := walkFrom_answered _ s.startIndex_ends
  iter := (yields_iter h).answered
  indices := (visits_indices h).yields.answered
  intoIter := (yields_intoIter h).answered
  unorderedHash := unorderedHash_answered h
  digestInto digest := by
    obtain ⟨hash, hhash⟩ := unorderedHash_answered h digest.finish
    exact ⟨_, by rw [digestInto, Digest.feedUnordered, hhash]; rfl⟩
  shownMembers := ⟨_, by rw [shownMembers, toList_iter h]; rfl⟩

/-! ### Comparing -/

theorem allM_answered {ι : Type} {f : ι → Except Fault Bool} (h : ∀ i, Answered (f i)) (items : List ι) :
    Answered (items.allM f) := by
  induction items with
  | nil => exact ⟨true, rfl⟩
  | cons i rest ih =>
    obtain ⟨accepted, hi⟩ := h i
    rw [List.allM, hi]
    cases accepted with
    | false => exact ⟨false, rfl⟩
    | true => exact ih

theorem Sturdy.equals {t : FixedSet K} (hs : s.Sturdy) (ht : t.Sturdy) : Answered (s.equals (.other t)) := by
  obtain ⟨⟨listed, behind⟩, hlisted⟩ := hs.iter (s.iter.buckets.regions.table.endBucket + 1)
  have hall : s.iter.toList = .ok listed := by rw [Cursor.toList, hlisted]; rfl
  by_cases hsize : s.size = t.size
  · obtain ⟨same, hsame⟩ := allM_answered ht.contains listed
    exact ⟨same, by simp only [FixedSet.equals, if_pos hsize, hall, bind, Except.bind, hsame]⟩
  · exact ⟨false, by simp only [FixedSet.equals, if_neg hsize]; rfl⟩

end FixedSet

end RobinHood
