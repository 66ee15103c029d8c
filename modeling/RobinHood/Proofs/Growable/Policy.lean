import RobinHood.Hashing.Digest
import RobinHood.Proofs.Growable.Upkeep

/-!
# Growing containers keep ledgers

Storage that keeps ledgers is kept up in the sense of the growth policy: entries may be kept together when
their keys differ. So growing and shrinking lose and add nothing, and a growing container refuses an entry
only when no capacity of the growth sequence would do.
-/

namespace RobinHood

open RobinHood.Action RobinHood.Ledger

/-- Storage that keeps ledgers. -/
class LawfulBacking (C : Type) (α K : outParam Type) [Backing C α] [BEq K] where
  keyOf : α → K
  /-- Storage of the given capacity holds the entries where searches find them. -/
  Keeps : Hasher K → Nat → C → List α → Prop
  /-- Storage of the given capacity holds the entries, but searches may miss them. -/
  Stores : Hasher K → Nat → C → List α → Prop
  Holds : C → Nat → α → Prop
  refusal : Fault
  stores : ∀ {hasher c s m}, Keeps hasher c s m → Stores hasher c s m
  perm : ∀ {hasher c s m m'}, Keeps hasher c s m → m.Perm m' → Keeps hasher c s m'
  distinct : ∀ {hasher c s m}, Stores hasher c s m → Distinct keyOf m
  count : ∀ {hasher c s m}, Stores hasher c s m → (Backing.table s).count = m.length
  capacity : ∀ {hasher c s m}, Stores hasher c s m → (Backing.table s).capacity = c
  length_le : ∀ {hasher c s m}, Stores hasher c s m → m.length ≤ c
  elements : ∀ {hasher c s m}, Stores hasher c s m → ∃ listed, Backing.elements s = .ok listed ∧ listed.Perm m
  renew : ∀ {hasher c s m c'} (seed : UInt64), Stores hasher c s m → c' ≤ Scale.limit →
    ∃ t, Backing.renew s c' seed = .ok t ∧ Keeps hasher c' t []
  insertNew : ∀ {hasher c s m x}, Keeps hasher c s m → lookup keyOf m (keyOf x) = none →
    Enters (Keeps hasher c) Holds ⟨c, refusal⟩
      (Backing.insertNew x (if (Backing.table s).isDense then 0 else Backing.hashOf s x)) s m x

def LawfulBacking.upkeep {C α K : Type} [Backing C α] [BEq K] [PartialEquivBEq K] [LawfulBacking C α K]
    (hasher : Hasher K) : Upkeep C α where
  Keeps := LawfulBacking.Keeps hasher
  Stores := LawfulBacking.Stores hasher
  Holds := LawfulBacking.Holds
  Apart x y := (keyOf C x == keyOf C y) = false
  refusal := LawfulBacking.refusal C
  stores := LawfulBacking.stores
  perm := LawfulBacking.perm
  apart := LawfulBacking.distinct
  apart_symm := BEq.symm_false
  count := LawfulBacking.count
  capacity := LawfulBacking.capacity
  length_le := LawfulBacking.length_le
  elements := LawfulBacking.elements
  renew := LawfulBacking.renew
  insertNew h hapart := LawfulBacking.insertNew h (lookup_eq_none_iff.mpr fun y hy => BEq.symm_false (hapart y hy))

namespace Growable

variable {C α K β : Type} [Backing C α] [BEq K] [LawfulBacking C α K] {hasher : Hasher K} {c : Nat}
  {g : Growable C} {m : List α} {x : α}

def room : Room where
  limit := Scale.limit
  refusal := .capacityOverflow

/-- The storage keeps the ledger, and its capacity is one of the growth sequence. -/
def Keeps (hasher : Hasher K) (g : Growable C) (m : List α) : Prop :=
  ∃ c, Scale.OnSequence c ∧ LawfulBacking.Keeps hasher c g.storage m

def Holds (g : Growable C) (bucket : Nat) (x : α) : Prop :=
  LawfulBacking.Holds g.storage bucket x

theorem alike_onStorage {action : Action C β} {step : Except Fault β × List α} (hseq : Scale.OnSequence c)
    (h : Alike (LawfulBacking.Keeps hasher c) (action.runOn g.storage) step) :
    Alike (Keeps hasher) ((onStorage action).runOn g) step :=
  ⟨h.1, c, hseq, h.2⟩

variable [EquivBEq K]

theorem Keeps.held (h : Keeps hasher g m) : (LawfulBacking.upkeep hasher).Held g m := h

theorem keeps_nil {minimum : Nat} {seeds : Seeds} {make : Nat → UInt64 → Except Fault C}
    (hmake : ∀ c seed s, make c seed = .ok s → LawfulBacking.Keeps hasher c s [])
    (hvacant : (do
      let capacity ← Scale.fitting minimum
      let (seed, seeds) := if capacity ≤ Table.denseLimit then (0, seeds) else seeds.draw
      return { storage := ← make capacity seed, seeds, journal := [] }) = Except.ok g) :
    Keeps hasher g [] :=
  (Upkeep.held_nil (U := LawfulBacking.upkeep hasher) hmake hvacant).1

theorem Keeps.size (h : Keeps hasher g m) : g.size = m.length :=
  h.held.size

theorem Keeps.reset (h : Keeps hasher g m) :
    ∃ t, (reset : Action (Growable C) Unit).runOn g = (.ok (), t) ∧ Keeps hasher t [] := by
  obtain ⟨t, hrun, hheld, -⟩ := h.held.reset
  exact ⟨t, hrun, hheld⟩

theorem Keeps.reserve (h : Keeps hasher g m) (n : Nat) :
    Alike (Keeps hasher) ((reserve n).runOn g) (Ledger.reserve room n m) := by
  rw [Ledger.reserve]
  obtain ⟨hroom, t, hrun, hheld, -⟩ | ⟨hroom, hrun⟩ := h.held.reserve n
  · rw [hrun, if_pos (show m.length + n ≤ room.limit from hroom)]
    exact ⟨rfl, hheld⟩
  · rw [hrun, if_neg (show ¬ m.length + n ≤ room.limit from Nat.not_le.mpr hroom)]
    exact ⟨rfl, h⟩

theorem Keeps.insertAbsent (h : Keeps hasher g m)
    (hnone : lookup (LawfulBacking.keyOf C) m (LawfulBacking.keyOf C x) = none) :
    Enters (Keeps hasher) Holds room (insertAbsent x (g.placementHash x)) g m x := by
  rw [Enters]
  obtain ⟨hroom, t, bucket, hrun, hheld, hholds, -⟩ | ⟨hroom, hrun⟩ :=
    h.held.insertAbsent fun y hy => BEq.symm_false (lookup_eq_none_iff.mp hnone y hy)
  · rw [if_pos (show m.length < room.limit from hroom)]
    exact ⟨t, bucket, hrun, hheld, hholds⟩
  · rw [if_neg (show ¬ m.length < room.limit from Nat.not_lt.mpr hroom)]
    exact hrun

theorem Keeps.shrinkToFit (h : Keeps hasher g m) :
    ∃ t, (shrinkToFit : Action (Growable C) Unit).runOn g = (.ok (), t) ∧ Keeps hasher t m := by
  obtain ⟨t, hrun, hheld, -⟩ := h.held.shrinkToFit
  exact ⟨t, hrun, hheld⟩

theorem Keeps.takeOut {remove abandon : Action C β} {storage : C} {m' : List α} {removed : β}
    (h : Keeps hasher g m) (htable : Backing.table storage = Backing.table g.storage)
    (hremove : ∀ c, LawfulBacking.Keeps hasher c g.storage m → ∃ t, remove.runOn storage = (.ok removed, t) ∧
      LawfulBacking.Keeps hasher c t m')
    (habandon : ∀ c, LawfulBacking.Keeps hasher c g.storage m → ∃ t, abandon.runOn storage = (.ok removed, t) ∧
      LawfulBacking.Stores hasher c t m') :
    ∃ t, (takeOut remove abandon).runOn { g with storage } = (.ok removed, t) ∧ Keeps hasher t m' := by
  obtain ⟨s, hs, -⟩ := h.held.scale
  obtain ⟨t, hrun, hkeeps⟩ := hremove _ h.held.keeps
  obtain ⟨t', hrun', hstores⟩ := habandon _ h.held.keeps
  obtain ⟨u, _, htake, hheld, rfl, -⟩ := h.held.takeOut (P := (· = m')) hs htable
    ⟨t, m', hrun, hkeeps, rfl⟩ ⟨t', m', hrun', hstores, rfl⟩
  exact ⟨u, htake, hheld⟩

end Growable

end RobinHood
