import Mathlib.Algebra.BigOperators.Group.List.Basic
import RobinHood.Proofs.Reachable

/-!
# Amortized cost of growing and shrinking

Moving elements from storage to storage is paid for by the calls that made it necessary. The credit saved up
is the distance of the number of elements from half the capacity: storage that was just replaced is about
half full, and it is replaced again only when it is full or nearly empty.
-/

namespace RobinHood

open RobinHood.Action

def Event.moved : Event → Nat
  | .resized _ _ count => count
  | .reset _ => 0

namespace Growable

variable {C α ι : Type} [Backing C α] {g t : Growable C}

def moved (g : Growable C) : Nat :=
  (g.journal.map Event.moved).sum

/-- The distance of twice the number of elements from the capacity. -/
def imbalance (g : Growable C) : Nat :=
  (2 * g.size - g.capacity) + (g.capacity - 2 * g.size)

theorem Stays.moved (h : Stays g t) : t.moved = g.moved := by
  rw [Growable.moved, Growable.moved, h.journal]

theorem Moves.moved {required count : Nat} (h : Moves required count g t) : t.moved = g.moved + count := by
  rw [Growable.moved, Growable.moved, h.journal, List.map_append, List.sum_append]
  rfl

theorem imbalance_of_fits_succ (hseq : Scale.OnSequence g.capacity) (hsize : t.size = g.capacity + 1)
    (hfits : Scale.Fits (g.capacity + 1) t.capacity) : t.imbalance ≤ 3 := by
  obtain ⟨s, -, hs⟩ := hseq
  rw [← hs] at hfits
  obtain ⟨hle, hge⟩ := Scale.capacity_succ_le s
  rw [imbalance, hfits.eq_next, hsize]
  omega

theorem imbalance_of_fits (hfits : Scale.Fits t.size t.capacity) : t.imbalance ≤ t.size := by
  have hle := hfits.le
  have hdouble := hfits.le_double
  rw [imbalance]
  omega

theorem imbalance_of_size_add_one (hcap : t.capacity = g.capacity) (hsize : t.size = g.size + 1) :
    t.imbalance ≤ g.imbalance + 2 := by
  rw [imbalance, imbalance, hcap, hsize]
  omega

theorem Stays.moved_le (h : Stays g t) (hsize : t.size = g.size) :
    t.moved + t.imbalance ≤ g.moved + g.imbalance + 3 := by
  have hsame : t.imbalance = g.imbalance := by rw [imbalance, imbalance, hsize, h.capacity]
  rw [h.moved, hsame]
  omega

/-- An added element is paid for, also if all others had to move for it. -/
theorem MakesRoom.moved_le (h : MakesRoom (g.size + 1) g.size g t) (hsize : t.size = g.size + 1)
    (hseq : Scale.OnSequence g.capacity) (hle : g.size ≤ g.capacity) :
    t.moved + t.imbalance ≤ g.moved + g.imbalance + 3 := by
  cases h with
  | stays _ hstays =>
    have hmore := imbalance_of_size_add_one hstays.capacity hsize
    rw [hstays.moved]
    omega
  | moves hfull hmoves =>
    have hcap : g.size = g.capacity := by omega
    have hcredit : g.imbalance = g.capacity := by rw [imbalance, hcap]; omega
    have hafter := imbalance_of_fits_succ hseq (hcap ▸ hsize) (hcap ▸ hmoves.fits)
    rw [hmoves.moved]
    omega

/-- When the elements that are left have to move, more than their number has been saved up. -/
theorem Sheds.moved_le (h : Sheds g t) (hseq : Scale.OnSequence g.capacity) :
    t.moved + t.imbalance ≤ g.moved + g.imbalance + 3 := by
  have hsize := h.size
  obtain ⟨s, hs, ⟨-, hstays⟩ | ⟨hfew, -, hmoves⟩⟩ := h.policy
  · have hless : t.imbalance ≤ g.imbalance + 2 := by
      rw [imbalance, imbalance, hstays.capacity]
      omega
    rw [hstays.moved]
    omega
  · have hcredit := Scale.quadruple_le_of_le_lowWater (by omega) hfew
    have hafter := imbalance_of_fits hmoves.fits
    have hcap : Scale.capacity s = g.capacity := (Scale.fits_of_ofCapacity hs).eq_of_fits hseq.fits
    -- So few elements are at most a quarter of the capacity, and a bit: the rest was saved up.
    have hsaved : 2 * g.size ≤ g.imbalance + 1 := by
      rw [imbalance]
      omega
    rw [hmoves.moved]
    omega

/-- Each call about an element pays with three units for what it moves and what it saves up. -/
theorem Effect.moved_le {before after : Bool} (h : Effect g t before after) (hseq : Scale.OnSequence g.capacity)
    (hle : g.size ≤ g.capacity) : t.moved + t.imbalance ≤ g.moved + g.imbalance + 3 := by
  cases h with
  | kept hsize hstays => exact hstays.moved_le hsize
  | added hsize hroom => exact hroom.moved_le hsize hseq hle
  | refused _ hsize hstays => exact hstays.moved_le hsize
  | shed hsheds => exact hsheds.moved_le hseq

/-- A run pays as its calls do. -/
theorem moved_foldl_le {U : Upkeep C α} {act : Growable C → ι → Growable C}
    (hact : ∀ g call, U.Kept g → U.Kept (act g call) ∧ ∃ before after, Effect g (act g call) before after) :
    ∀ (calls : List ι) {g : Growable C}, U.Kept g →
      (calls.foldl act g).moved + (calls.foldl act g).imbalance ≤ g.moved + g.imbalance + 3 * calls.length := by
  intro calls
  induction calls with
  | nil => exact fun {g} _ => by simp
  | cons call calls ih =>
    intro g hg
    obtain ⟨m, hheld⟩ := id hg
    obtain ⟨hkept, _, _, heffect⟩ := hact g call hg
    have hstep := heffect.moved_le hheld.onSequence (hheld.size ▸ hheld.length_le)
    have hrest := ih hkept
    rw [List.foldl_cons, List.length_cons]
    omega

end Growable

variable {K V ε R : Type}

variable [BEq K]

theorem GrowSet.MemberObeys.effect {call : MemberCall K} {g t : GrowSet K} (h : MemberObeys call g t) :
    ∃ before after, Growable.Effect g t before after :=
  let ⟨_, _, heffect⟩ := h
  ⟨_, _, heffect⟩

theorem GrowDict.EntryObeys.effect {call : EntryCall K V ε R} {g t : GrowDict K V} (h : EntryObeys call g t) :
    ∃ before after, Growable.Effect g t before after :=
  let ⟨_, _, heffect⟩ := h
  ⟨_, _, heffect⟩

def GrowSet.after (calls : List (MemberCall K)) (g : GrowSet K) : GrowSet K :=
  calls.foldl (fun g call => ((carryOut (.member call : Call K Empty)).runOn g).2) g

def GrowDict.after (calls : List (EntryCall K V ε R)) (g : GrowDict K V) : GrowDict K V :=
  calls.foldl (fun g call => ((carryOut (.entry call)).runOn g).2) g

variable {hasher : Hasher K}

theorem GrowSet.moved_after_le {U : FixedSet.Upkeep hasher} {g : GrowSet K} (h : U.Kept g)
    (calls : List (MemberCall K)) :
    (after calls g).moved + (after calls g).imbalance ≤ g.moved + g.imbalance + 3 * calls.length :=
  Growable.moved_foldl_le (fun _ _ hg => (carryOut_safe hg _).after.imp_right MemberObeys.effect) calls h

theorem GrowDict.moved_after_le {U : FixedDict.Upkeep V hasher} {g : GrowDict K V} (h : U.Kept g)
    (calls : List (EntryCall K V ε R)) :
    (after calls g).moved + (after calls g).imbalance ≤ g.moved + g.imbalance + 3 * calls.length :=
  Growable.moved_foldl_le (fun _ _ hg => (carryOut_safe hg _).after.imp_right EntryObeys.effect) calls h

/-- However calls about single elements hover around the capacities, they move no more than three elements
each on the average, starting from a container without capacity. -/
theorem moved_le_three_mul_length (hasher : Hasher K) (seeds : Seeds) :
    (∃ g : GrowSet K, GrowSet.vacant 0 hasher seeds = .ok g ∧ g.capacity = 0 ∧
      ∀ calls : List (MemberCall K), (GrowSet.after calls g).moved ≤ 3 * calls.length) ∧
    ∃ g : GrowDict K V, GrowDict.vacant 0 hasher seeds = .ok g ∧ g.capacity = 0 ∧
      ∀ {ε R : Type} (calls : List (EntryCall K V ε R)), (GrowDict.after calls g).moved ≤ 3 * calls.length := by
  constructor
  · have hnew : GrowSet.vacant 0 hasher seeds = .ok _ := rfl
    refine ⟨_, hnew, rfl, fun calls => ?_⟩
    obtain ⟨hheld, -⟩ := (GrowSet.vacant_made (FixedSet.steady hasher)).good _ hnew
    have hbound := GrowSet.moved_after_le ⟨[], hheld⟩ calls
    change _ ≤ 0 + 0 + 3 * calls.length at hbound
    omega
  · have hnew : (GrowDict.vacant 0 hasher seeds : Except Fault (GrowDict K V)) = .ok _ := rfl
    refine ⟨_, hnew, rfl, fun calls => ?_⟩
    obtain ⟨hheld, -⟩ := (GrowDict.vacant_made (FixedDict.steady hasher)).good _ hnew
    have hbound := GrowDict.moved_after_le ⟨[], hheld⟩ calls
    change _ ≤ 0 + 0 + 3 * calls.length at hbound
    omega

end RobinHood
