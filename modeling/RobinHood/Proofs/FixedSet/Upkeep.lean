import RobinHood.Proofs.GrowSet

/-!
# Ways of keeping sets

What the operations of sets need of their storage, whoever asks what they lead to. There are two ways to have
it: table and slots that are in step, whatever the hashes and comparisons of the keys are; and ledgers, if
equal keys have equal hashes.
-/

namespace RobinHood.FixedSet

open RobinHood.Action RobinHood.Ledger

variable {K : Type} [BEq K]

/-- A way of keeping the members of sets with a given hasher. -/
structure Upkeep (hasher : Hasher K) extends RobinHood.Upkeep (FixedSet K) K where
  refusal_eq : refusal = .setFull
  inStep : ∀ {c s m}, Keeps c s m → s.toSeating.InStep
  vacant : ∀ {c seed s}, FixedSet.vacant c hasher seed = .ok s → Keeps c s []
  /-- A search finds an equal member, or there is none that the key may not be kept together with. -/
  search : ∀ {c s m}, Keeps c s m → ∀ key,
    (∃ b x hash, s.search key = .ok ⟨some b, hash⟩ ∧ s.slots.occupant b = some x ∧ (x == key) = true) ∨
    (s.search key = .ok ⟨none, if s.table.isDense then 0 else s.hashOf key⟩ ∧ ∀ y ∈ m, Apart key y)
  replaceAt : ∀ {c s m b x key}, Keeps c s m → s.slots.occupant b = some x → (x == key) = true →
    ∃ t m', (replaceAt b key).runOn s = (.ok x, t) ∧ Keeps c t m' ∧ m'.length = m.length
  removeAt : ∀ {c s m b x}, Keeps c s m → s.slots.occupant b = some x →
    ∃ t m', (removeAt b).runOn s = (.ok x, t) ∧ Keeps c t m' ∧ m'.length + 1 = m.length
  abandonAt : ∀ {c s m b x}, Keeps c s m → s.slots.occupant b = some x →
    ∃ t m', (abandonAt b).runOn s = (.ok x, t) ∧ Stores c t m' ∧ m'.length + 1 = m.length
  clear : ∀ {c s m}, Keeps c s m → Keeps c { s with toSeating := s.toSeating.clear } []

/-! ### In step -/

/-- The set has the members in its slots, in step with its table. -/
structure Steady (c : Nat) (s : FixedSet K) (m : List K) : Prop where
  capacity : s.table.capacity = c
  inStep : s.toSeating.InStep
  elements : s.slots.elements.Perm m

section Steady

variable {c : Nat} {s : FixedSet K} {m : List K} {key x : K} {b : Nat} {hash : UInt64}

omit [BEq K]

theorem Steady.count (h : Steady c s m) : s.table.count = m.length := by
  rw [h.inStep.count, h.elements.length_eq]

theorem Steady.length_le (h : Steady c s m) : m.length ≤ c := by
  rw [← h.count, ← h.capacity]
  exact h.inStep.count_le

theorem Steady.insertNew (h : Steady c s m) :
    Enters (Steady c) (fun t b x => t.slots.occupant b = some x) ⟨c, .setFull⟩ (insertNew key hash) s m key := by
  have hcount := h.count
  have hcap := h.capacity
  have hle := h.length_le
  rw [Enters]
  by_cases hroom : m.length < c
  · rw [if_pos hroom]
    obtain ⟨seated, hok, hseats⟩ := h.inStep.seat (by omega) s.hashOf key hash
    exact ⟨_, _, runOn_insertNew (by omega) hok,
      ⟨hseats.like.capacity.trans hcap, hseats.inStep, hseats.elements.trans (h.elements.cons key)⟩, hseats.landed⟩
  · rw [if_neg hroom]
    exact runOn_insertNew_full (by omega)

/-- Taking a member out leaves the others. -/
private theorem Steady.unseats {unseated : Unseated K} (h : Steady c s m)
    (hunseats : Seating.Unseats s.toSeating b unseated) :
    ∃ m', Steady c { s with toSeating := unseated.seating } m' ∧ m'.length + 1 = m.length := by
  refine ⟨_, ⟨hunseats.like.capacity.trans h.capacity, hunseats.inStep, .refl _⟩, ?_⟩
  rw [← h.elements.length_eq, hunseats.elements.length_eq, List.length_cons]

theorem Steady.replaceAt (h : Steady c s m) (hx : s.slots.occupant b = some x) (key : K) :
    ∃ t m', (replaceAt b key).runOn s = (.ok x, t) ∧ Steady c t m' ∧ m'.length = m.length := by
  have hlength := (Slots.elements_replace hx key).length_eq
  rw [List.length_cons, List.length_cons, h.elements.length_eq] at hlength
  exact ⟨_, _, runOn_replaceAt hx key, ⟨h.capacity, h.inStep.replace hx key, .refl _⟩, Nat.succ.inj hlength⟩

end Steady

theorem Keeps.steady {hasher : Hasher K} {c : Nat} {s : FixedSet K} {m : List K} (h : Keeps hasher c s m) :
    Steady c s m :=
  ⟨h.capacity, h.seating.orderly.toInStep, h.seating.elements⟩

/-- Keeping table and slots in step, which the hasher has no part in. -/
def steady (hasher : Hasher K) : Upkeep hasher where
  Keeps := Steady
  Stores := Steady
  Holds s b x := s.slots.occupant b = some x
  Apart _ _ := True
  refusal := .setFull
  stores h := h
  perm h hperm := ⟨h.capacity, h.inStep, h.elements.trans hperm⟩
  apart _ := List.pairwise_of_forall fun _ _ => trivial
  apart_symm _ := trivial
  count h := h.count
  capacity h := h.capacity
  length_le h := h.length_le
  elements h := ⟨_, toList_intoIter h.inStep, h.elements⟩
  renew {_ s _ _} seed _ hlimit := by
    obtain ⟨t, hvacant, hkeeps⟩ := exists_keeps_nil s.hasher seed hlimit
    exact ⟨t, hvacant, hkeeps.steady⟩
  insertNew h _ := h.insertNew
  refusal_eq := rfl
  inStep h := h.inStep
  vacant hvacant := (keeps_nil hvacant).steady
  search {_ s _} h key := by
    obtain ⟨found, hfind, hfinds⟩ := h.inStep.find (s.hashOf key) (· == key)
    cases found with
    | none => exact .inr ⟨hfind, fun _ _ => trivial⟩
    | some b =>
      obtain ⟨x, hx, hkey⟩ := hfinds b rfl
      exact .inl ⟨b, x, _, hfind, hx, hkey⟩
  replaceAt h hx _ := h.replaceAt hx _
  removeAt {_ s _ _ _} h hx := by
    obtain ⟨unseated, hok, hunseats⟩ := h.inStep.unseat s.hashOf hx
    obtain ⟨m', hsteady, hlength⟩ := h.unseats hunseats
    cases hx.symm.trans hunseats.element
    exact ⟨_, m', runOn_removeAt hok, hsteady, hlength⟩
  abandonAt {_ s _ _ _} h hx := by
    obtain ⟨unseated, hok, hunseats⟩ := h.inStep.abandon hx
    obtain ⟨m', hsteady, hlength⟩ := h.unseats hunseats
    cases hx.symm.trans hunseats.element
    exact ⟨_, m', runOn_abandonAt hok, hsteady, hlength⟩
  clear h := by
    have hclear := h.inStep.clear fun _ => 0
    exact ⟨(Table.capacity_clear _).trans h.capacity, hclear.toInStep, by rw [Seating.elements_clear]⟩

/-! ### Ledgers -/

theorem Keeps.length_strike [EquivBEq K] {hasher : Hasher K} {c b : Nat} {s : FixedSet K} {m : List K} {x : K}
    (h : Keeps hasher c s m) (hx : s.slots.occupant b = some x) : (strike id m x).length + 1 = m.length :=
  h.seating.distinct.length_strike (h.seating.elements.mem_iff.mp (Slots.mem_elements.mpr ⟨b, hx⟩))

/-- Keeping ledgers, which is what sets are for. -/
def lawful [EquivBEq K] {hasher : Hasher K} (hlawful : hasher.Lawful) : Upkeep hasher where
  toUpkeep := LawfulBacking.upkeep hasher
  refusal_eq := rfl
  inStep h := h.seating.orderly.toInStep
  vacant := keeps_nil
  search {_ s _} h key := by
    obtain ⟨b, x, hsearch, hx, hmember⟩ | ⟨hsearch, hmember⟩ := h.search hlawful key
    · exact .inl ⟨b, x, _, hsearch, hx, (mem_of_lookup hmember).2⟩
    · rw [← h.probeHash] at hsearch
      exact .inr ⟨hsearch, fun y hy => BEq.symm_false (lookup_eq_none_iff.mp hmember y hy)⟩
  replaceAt h hx hkey := by
    obtain ⟨t, hrun, hkeeps⟩ := h.replaceAt hlawful hx hkey
    exact ⟨t, _, hrun, hkeeps, List.length_map ..⟩
  removeAt h hx := by
    obtain ⟨t, hrun, hkeeps⟩ := h.removeAt hx BEq.rfl
    exact ⟨t, _, hrun, hkeeps, h.length_strike hx⟩
  abandonAt h hx := by
    obtain ⟨t, hrun, hstores⟩ := h.abandonAt hx BEq.rfl
    exact ⟨t, _, hrun, hstores, h.length_strike hx⟩
  clear h := ⟨h.hashes, (Table.capacity_clear _).trans h.capacity, h.seating.clear⟩

end RobinHood.FixedSet
