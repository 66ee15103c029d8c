import RobinHood.Hashing.Digest
import RobinHood.Proofs.Ledger.Basic
import RobinHood.Proofs.Seating.Insertion
import RobinHood.Proofs.Seating.Removal
import RobinHood.Proofs.Seating.Search

/-!
# Seatings that keep a ledger

A seating keeps a ledger when it is orderly, under the hashes of the entries' keys, and its elements are
the entries of the ledger. Each operation of a seating is here one of the ledger: that is all that sets
and dictionaries have to know about tables.
-/

namespace RobinHood

variable {α K : Type}

/-- Equal keys have equal hashes, whatever the seed. -/
def Hasher.Lawful [BEq K] (hasher : Hasher K) : Prop :=
  ∀ seed a b, (a == b) = true → hasher seed a = hasher seed b

namespace Seating

variable {keyOf : α → K} {hasher : Hasher K} {s t : Seating α} {m : List α} {x : α} {k : K} {b : Nat}

/-- The hash of an entry in the table of a seating. -/
def entryHash (keyOf : α → K) (hasher : Hasher K) (s : Seating α) (x : α) : UInt64 :=
  hasher s.table.seed (keyOf x)

/-- What a search answers as the hash of a key, and what seating an entry under that key asks for. -/
def probeHash (hasher : Hasher K) (s : Seating α) (k : K) : UInt64 :=
  if s.table.isDense then 0 else hasher s.table.seed k

theorem entryHash_congr (h : t.table.Like s.table) : entryHash keyOf hasher t = entryHash keyOf hasher s := by
  funext x
  rw [entryHash, entryHash, h.seed]

variable [BEq K]

/-- The seating holds the entries of the ledger where searches find them. -/
structure Keeps (keyOf : α → K) (hasher : Hasher K) (s : Seating α) (m : List α) : Prop where
  orderly : s.Orderly (entryHash keyOf hasher s)
  elements : s.slots.elements.Perm m
  distinct : Ledger.Distinct keyOf m

theorem Keeps.count (h : s.Keeps keyOf hasher m) : s.table.count = m.length := by
  rw [h.orderly.count, h.elements.length_eq]

theorem Keeps.length_le (h : s.Keeps keyOf hasher m) : m.length ≤ s.table.capacity := by
  rw [← h.count]
  exact h.orderly.count_le

theorem Keeps.isFull (h : s.Keeps keyOf hasher m) : s.table.isFull = (m.length == s.table.capacity) := by
  rw [Table.isFull, h.count]

theorem Keeps.isEmpty (h : s.Keeps keyOf hasher m) : s.table.isEmpty = m.isEmpty := by
  rw [Table.isEmpty, h.count]
  cases m <;> rfl

theorem keeps_nil {capacity : Nat} {seed : UInt64} (hvacant : vacant capacity seed = .ok s) :
    s.Keeps keyOf hasher [] := by
  obtain ⟨horderly, hnil, -⟩ := vacant_eq_ok hvacant (entryHash keyOf hasher s)
  exact ⟨horderly, by rw [hnil], Ledger.distinct_nil⟩

theorem Keeps.clear (h : s.Keeps keyOf hasher m) : s.clear.Keeps keyOf hasher [] :=
  ⟨h.orderly.clear _, by rw [elements_clear], Ledger.distinct_nil⟩

variable [EquivBEq K]

theorem Keeps.find (h : s.Keeps keyOf hasher m) (hlawful : hasher.Lawful) (k : K) :
    (∃ b x, s.find (hasher s.table.seed k) (fun x => keyOf x == k) = .ok ⟨some b, probeHash hasher s k⟩ ∧
      s.slots.occupant b = some x ∧ Ledger.lookup keyOf m k = some x) ∨
    (s.find (hasher s.table.seed k) (fun x => keyOf x == k) = .ok ⟨none, probeHash hasher s k⟩ ∧
      Ledger.lookup keyOf m k = none) := by
  obtain ⟨found, hfind, hfinds⟩ := h.orderly.find (fun x => keyOf x == k)
    fun x _ hkey => hlawful s.table.seed (keyOf x) k hkey
  cases found with
  | none =>
    right
    refine ⟨hfind, Ledger.lookup_eq_none_iff.mpr fun x hx => ?_⟩
    exact hfinds x (h.elements.mem_iff.mpr hx)
  | some b =>
    left
    obtain ⟨x, hx, hkey⟩ := hfinds
    have hmem : x ∈ m := h.elements.mem_iff.mp (Slots.mem_elements.mpr ⟨b, hx⟩)
    exact ⟨b, x, hfind, hx, h.distinct.lookup_of_mem hmem hkey⟩

theorem Keeps.seat (h : s.Keeps keyOf hasher m) (hroom : m.length < s.table.capacity)
    (hnone : Ledger.lookup keyOf m (keyOf x) = none) :
    ∃ seated, s.seat (entryHash keyOf hasher s) x (probeHash hasher s (keyOf x)) = .ok seated ∧
      Seats s x seated ∧ seated.seating.Keeps keyOf hasher (x :: m) := by
  have hhash : s.table.isDense = false → probeHash hasher s (keyOf x) = entryHash keyOf hasher s x := by
    intro hprobed
    rw [probeHash, hprobed]
    rfl
  obtain ⟨seated, hok, hseats, horderly⟩ := h.orderly.seat (by rwa [h.count]) x hhash
  rw [← entryHash_congr hseats.like] at horderly
  exact ⟨seated, hok, hseats, horderly, hseats.elements.trans (h.elements.cons x), h.distinct.cons hnone⟩

private theorem Keeps.strike_perm {rest : List α} (h : s.Keeps keyOf hasher m)
    (hperm : s.slots.elements.Perm (x :: rest)) (hk : (keyOf x == k) = true) :
    rest.Perm (Ledger.strike keyOf m k) := by
  have hcons := h.elements.symm.trans hperm
  have hstrike := Ledger.strike_perm keyOf hcons k
  rw [Ledger.strike_cons (h.distinct.perm hcons) hk] at hstrike
  exact hstrike.symm

theorem Keeps.unseat (h : s.Keeps keyOf hasher m) (hx : s.slots.occupant b = some x)
    (hk : (keyOf x == k) = true) :
    ∃ unseated, s.unseat (entryHash keyOf hasher s) b = .ok unseated ∧ Unseats s b unseated ∧
      unseated.element = x ∧ unseated.seating.Keeps keyOf hasher (Ledger.strike keyOf m k) := by
  obtain ⟨unseated, hok, hunseats, horderly⟩ := h.orderly.unseat hx
  obtain rfl : x = unseated.element := Option.some.inj (hx.symm.trans hunseats.element)
  rw [← entryHash_congr hunseats.like] at horderly
  exact ⟨unseated, hok, hunseats, rfl, horderly, h.strike_perm hunseats.elements hk, h.distinct.strike k⟩

/-- Abandoning the bucket of the entry under a key leaves the entries of the ledger without it, but not
where searches find them. -/
theorem Keeps.abandon (h : s.Keeps keyOf hasher m) (hx : s.slots.occupant b = some x)
    (hk : (keyOf x == k) = true) :
    ∃ unseated, s.abandon b = .ok unseated ∧ Unseats s b unseated ∧ unseated.element = x ∧
      unseated.seating.slots.elements.Perm (Ledger.strike keyOf m k) := by
  obtain ⟨unseated, hok, hunseats⟩ := h.orderly.abandon hx
  obtain rfl : x = unseated.element := Option.some.inj (hx.symm.trans hunseats.element)
  exact ⟨unseated, hok, hunseats, rfl, h.strike_perm hunseats.elements hk⟩

/-- Storing a changed entry in the place of the one under a key amends the ledger, if the new key is equal
to the old one. -/
theorem Keeps.amend {f : α → α} (h : s.Keeps keyOf hasher m) (hlawful : hasher.Lawful)
    (hx : s.slots.occupant b = some x) (hk : (keyOf x == k) = true)
    (hf : ∀ y, (keyOf y == k) = true → (keyOf (f y) == keyOf y) = true) :
    Keeps keyOf hasher ⟨s.table, s.slots.assign b (some (f x))⟩ (Ledger.amend keyOf f m k) where
  orderly := h.orderly.replace hx (hlawful s.table.seed _ _ (hf x hk))
  elements := by
    have hcons := h.elements.symm.trans (Slots.elements_perm_cons hx)
    have hamend := Ledger.amend_perm keyOf hcons f k
    rw [Ledger.amend_cons (h.distinct.perm hcons) f hk] at hamend
    have hx' : (s.slots.assign b (some (f x))).occupant b = some (f x) := by
      rw [Slots.occupant_assign (Slots.lt_size_of_occupant hx), Function.update_self]
    have hafter := Slots.elements_perm_cons hx'
    rw [Slots.assign_assign] at hafter
    exact hafter.trans hamend.symm
  distinct := h.distinct.amend hf

end Seating

end RobinHood
