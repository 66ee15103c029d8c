import RobinHood.Proofs.GrowSet

/-!
# Sets

Both kinds of sets are what is expected of sets, and so they agree with each other: driven by the same
requests, as long as neither is out of room, they hold the same members and are equal at every step.
-/

namespace RobinHood

open Ledger

variable {K : Type} [BEq K]

/-- Both sets list the same members, up to order, and are equal in either direction. -/
structure SameMembers (s : FixedSet K) (g : GrowSet K) : Prop where
  members : ∃ listed listed', s.iter.toList = .ok listed ∧ g.storage.iter.toList = .ok listed' ∧
    listed.Perm listed'
  equals : s.equals (.other g.storage) = .ok true
  equals_symm : g.storage.equals (.other s) = .ok true

/-- A run in which no request is refused with `refusal`. -/
def Unrefused {σ β : Type} (refusal : Fault) (run : List (Except Fault β × σ)) : Prop :=
  ∀ step ∈ run, step.1 ≠ .error refusal

variable [EquivBEq K] {fixedHasher growHasher : Hasher K} {c : Nat} {s : FixedSet K} {g : GrowSet K} {m : List K}

theorem sameMembers (hs : FixedSet.Keeps fixedHasher c s m) (hg : GrowSet.Keeps growHasher g m)
    (hfixed : fixedHasher.Lawful) (hgrow : growHasher.Lawful) : SameMembers s g := by
  obtain ⟨c', -, hg⟩ := hg
  exact ⟨⟨_, _, FixedSet.toList_iter hs.seating.orderly.toInStep, FixedSet.toList_iter hg.seating.orderly.toInStep,
      hs.seating.elements.trans hg.seating.elements.symm⟩,
    hs.equals hg hgrow, hg.equals hs hfixed⟩

private theorem lockstep (hfixed : fixedHasher.Lawful) (hgrow : growHasher.Lawful)
    (requests : List (SetRequest K)) : ∀ {s : FixedSet K} {g : GrowSet K} {m : List K},
      FixedSet.Keeps fixedHasher c s m → GrowSet.Keeps growHasher g m →
      Unrefused .setFull (trace (fun request s => (FixedSet.answer request).runOn s) requests s) →
      Unrefused .capacityOverflow (trace (fun request g => (GrowSet.answer request).runOn g) requests g) →
      List.Forall₂ (Alike SameMembers) (trace (fun request s => (FixedSet.answer request).runOn s) requests s)
        (trace (fun request g => (GrowSet.answer request).runOn g) requests g) := by
  induction requests with
  | nil => exact fun _ _ _ _ => .nil
  | cons request requests ih =>
    intro s g m hs hg hroom hroom'
    obtain ⟨hsame, hs'⟩ := hs.answer hfixed request
    obtain ⟨hsame', hg'⟩ := GrowSet.Keeps.answer hg hgrow request
    have hhere := hroom _ List.mem_cons_self
    have hhere' := hroom' _ List.mem_cons_self
    rw [hsame] at hhere
    rw [hsame'] at hhere'
    rw [answerSet_eq_of_room hhere hhere'] at hsame hs'
    exact .cons ⟨hsame.trans hsame'.symm, sameMembers hs' hg' hfixed hgrow⟩
      (ih hs' hg' (fun step hstep => hroom step (List.mem_cons_of_mem _ hstep))
        fun step hstep => hroom' step (List.mem_cons_of_mem _ hstep))

/-- A fixed set is a set of at most `c` members, a growing set is one that grows, and where both have room
they agree, whatever their hashers, seeds and capacities. -/
theorem sets_refine_and_agree (hfixed : fixedHasher.Lawful) (hgrow : growHasher.Lawful) {seed : UInt64}
    {minimum : Nat} {seeds : Seeds} (hs : FixedSet.vacant c fixedHasher seed = .ok s)
    (hg : GrowSet.vacant minimum growHasher seeds = .ok g) :
    (∀ requests, List.Forall₂ (Alike (FixedSet.Shows c)) (trace FixedSet.respond requests s)
      (trace (FixedSet.expected c) requests [])) ∧
    (∀ requests, List.Forall₂ (Alike GrowSet.Shows) (trace GrowSet.respond requests g)
      (trace GrowSet.expected requests [])) ∧
    ∀ requests,
      Unrefused .setFull (trace (fun request s => (FixedSet.answer request).runOn s) requests s) →
      Unrefused .capacityOverflow (trace (fun request g => (GrowSet.answer request).runOn g) requests g) →
      List.Forall₂ (Alike SameMembers) (trace (fun request s => (FixedSet.answer request).runOn s) requests s)
        (trace (fun request g => (GrowSet.answer request).runOn g) requests g) := by
  have hkeeps := FixedSet.keeps_nil hs
  have hkeeps' := GrowSet.keeps_nil hg
  refine ⟨fun requests => ?_, fun requests => ?_, fun requests => lockstep hfixed hgrow requests hkeeps hkeeps'⟩
  · exact ((FixedSet.simulates hfixed c).trace requests hkeeps).imp fun _ _ h => ⟨h.1, h.2.shows⟩
  · exact ((GrowSet.simulates hgrow).trace requests hkeeps').imp fun _ _ h => ⟨h.1, GrowSet.Keeps.shows h.2⟩

/-- A probed set in which all members have the same home, and a growing set without members. -/
theorem sets_refine_and_agree_colliding : ∃ (s : FixedSet Nat) (g : GrowSet Nat),
    Hasher.Lawful (fun _ (_ : Nat) => 31) ∧ Hasher.Lawful (fun seed (key : Nat) => seed + key.toUInt64) ∧
    FixedSet.vacant 16 (fun _ _ => 31) 0 = .ok s ∧
    GrowSet.vacant 0 (fun seed key => seed + key.toUInt64) (.constant 7) = .ok g ∧
    List.Forall₂ (Alike SameMembers)
      (trace (fun request s => (FixedSet.answer request).runOn s)
        [.insert 1, .insert 2, .update 1, .remove 2, .locate 1] s)
      (trace (fun request g => (GrowSet.answer request).runOn g)
        [.insert 1, .insert 2, .update 1, .remove 2, .locate 1] g) := by
  have hfixed : Hasher.Lawful (fun _ (_ : Nat) => 31) := fun _ _ _ _ => rfl
  have hgrow : Hasher.Lawful (fun seed (key : Nat) => seed + key.toUInt64) := by
    intro seed a b hab
    rw [beq_iff_eq.mp hab]
  have hs : FixedSet.vacant 16 (fun _ (_ : Nat) => 31) 0 =
      .ok ⟨⟨⟨.probed (.zeros 32), 16, 0, 0⟩, .vacant 32⟩, _⟩ := rfl
  have hg : GrowSet.vacant 0 (fun seed (key : Nat) => seed + key.toUInt64) (.constant 7) =
      .ok ⟨⟨⟨⟨.dense, 0, 0, 0⟩, .vacant 0⟩, _⟩, .constant 7, []⟩ := rfl
  refine ⟨_, _, hfixed, hgrow, hs, hg, (sets_refine_and_agree hfixed hgrow hs hg).2.2 _ ?_ ?_⟩
  · unfold Unrefused
    decide
  · unfold Unrefused
    decide

end RobinHood
