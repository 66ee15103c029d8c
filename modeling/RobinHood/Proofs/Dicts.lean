import RobinHood.Proofs.GrowDict

/-!
# Dictionaries

Both kinds of dictionaries are what is expected of finite maps, whatever is requested of them and in which
order: one of at most `c` entries, and one that grows as long as there is a larger capacity.
-/

namespace RobinHood

variable {K V ε R : Type} [BEq K] [EquivBEq K] {hasher : Hasher K}

/-- A fixed dictionary is a finite map of at most `c` entries. It notices lack of room before it has a value
computed. -/
theorem fixedDict_refines_map (hlawful : hasher.Lawful) {c : Nat} (hc : c ≤ Scale.limit) (seed : UInt64) :
    ∃ d : FixedDict K V, FixedDict.vacant c hasher seed = .ok d ∧
      ∀ requests : List (FixedDict.Request K V ε R),
        List.Forall₂ (Alike (FixedDict.Shows c)) (trace FixedDict.respond requests d)
          (trace (FixedDict.expected true c) requests []) := by
  obtain ⟨d, hvacant, hkeeps⟩ := FixedDict.exists_keeps_nil (V := V) hasher seed hc
  refine ⟨d, hvacant, fun requests => ?_⟩
  exact ((FixedDict.simulates hlawful c).trace requests hkeeps).imp fun _ _ h => ⟨h.1, h.2.shows⟩

/-- A probed dictionary in which all keys have the same home. -/
theorem fixedDict_refines_map_colliding : ∃ d : FixedDict Nat String,
    Hasher.Lawful (fun _ (_ : Nat) => 31) ∧ 16 ≤ Scale.limit ∧ FixedDict.vacant 16 (fun _ _ => 31) 0 = .ok d ∧
    List.Forall₂ (Alike (FixedDict.Shows 16))
      (trace (FixedDict.respond (ε := Empty) (R := Bool))
        [.plain (.insert 1 "a"), .plain (.insert 2 "b"), .plain (.update 1 "c"), .plain (.removeEntry 1),
          .plain (.edit 2 fun old => ⟨none, .ok old.isSome⟩), .tryInsert 2 "d", .plain (.get 2)] d)
      (trace (FixedDict.expected (ε := Empty) (R := Bool) true 16)
        [.plain (.insert 1 "a"), .plain (.insert 2 "b"), .plain (.update 1 "c"), .plain (.removeEntry 1),
          .plain (.edit 2 fun old => ⟨none, .ok old.isSome⟩), .tryInsert 2 "d", .plain (.get 2)] []) := by
  have hlawful : Hasher.Lawful (fun _ (_ : Nat) => 31) := fun _ _ _ _ => rfl
  have hc : 16 ≤ Scale.limit := by decide
  obtain ⟨d, hvacant, hall⟩ := fixedDict_refines_map (V := String) (ε := Empty) (R := Bool) hlawful hc 0
  exact ⟨d, hlawful, hc, hvacant, hall _⟩

/-- A full dictionary refuses for lack of room where a finite map would report that no value was computed:
nothing would have been added. -/
theorem fixedDict_refuses_before_computing : ∃ d : FixedDict Nat Nat,
    FixedDict.vacant 1 (fun _ _ => 0) 0 = .ok d ∧
    ¬ List.Forall₂ (Alike (FixedDict.Shows 1))
      (trace (FixedDict.respond (R := Empty))
        [.plain (.insert 1 10), .plain (.tryMemoize 2 fun _ => .ok (.error "no"))] d)
      (trace (FixedDict.expected (R := Empty) false 1)
        [.plain (.insert 1 10), .plain (.tryMemoize 2 fun _ => .ok (.error "no"))] []) := by
  refine ⟨⟨⟨⟨⟨.dense, 1, 0, 0⟩, .vacant 1⟩, _⟩, .vacant 1⟩, rfl, fun hall => ?_⟩
  cases hall with
  | cons _ hrest =>
    cases hrest with
    | cons hmemo _ => cases hmemo.1

/-- A growing dictionary is a finite map that grows as long as there is a larger capacity. -/
theorem growDict_refines_map (hlawful : hasher.Lawful) {minimum : Nat} (hminimum : minimum ≤ Scale.limit)
    (seeds : Seeds) :
    ∃ g : GrowDict K V, GrowDict.vacant minimum hasher seeds = .ok g ∧
      ∀ requests : List (GrowDict.Request K V ε R),
        List.Forall₂ (Alike GrowDict.Shows) (trace GrowDict.respond requests g)
          (trace GrowDict.expected requests []) := by
  obtain ⟨g, hvacant, hkeeps⟩ := GrowDict.exists_keeps_nil (V := V) hasher seeds hminimum
  refine ⟨g, hvacant, fun requests => ?_⟩
  exact ((GrowDict.simulates hlawful).trace requests hkeeps).imp fun _ _ h => ⟨h.1, GrowDict.Keeps.shows h.2⟩

/-- A dictionary that grows for what is announced, and is replaced again when most entries are gone. -/
theorem growDict_refines_map_moving : ∃ g : GrowDict Nat String,
    Hasher.Lawful (fun seed (key : Nat) => seed + key.toUInt64) ∧ 0 ≤ Scale.limit ∧
    GrowDict.vacant 0 (fun seed key => seed + key.toUInt64) (.constant 7) = .ok g ∧
    List.Forall₂ (Alike GrowDict.Shows)
      (trace (GrowDict.respond (ε := String) (R := Bool))
        [.extend [(1, "a"), (2, "b"), (1, "c")] 20, .plain (.tryMemoize 3 fun _ => .ok (.error "no")),
          .plain (.memoize 3 fun _ => .ok "d"), .plain (.edit 1 fun old => ⟨none, .ok old.isSome⟩), .shrinkToFit,
          .plain (.get 3)] g)
      (trace (GrowDict.expected (ε := String) (R := Bool))
        [.extend [(1, "a"), (2, "b"), (1, "c")] 20, .plain (.tryMemoize 3 fun _ => .ok (.error "no")),
          .plain (.memoize 3 fun _ => .ok "d"), .plain (.edit 1 fun old => ⟨none, .ok old.isSome⟩), .shrinkToFit,
          .plain (.get 3)] []) := by
  have hlawful : Hasher.Lawful (fun seed (key : Nat) => seed + key.toUInt64) := by
    intro seed a b hab
    rw [beq_iff_eq.mp hab]
  obtain ⟨g, hvacant, hall⟩ :=
    growDict_refines_map (V := String) (ε := String) (R := Bool) hlawful (Nat.zero_le _) (.constant 7)
  exact ⟨g, hlawful, Nat.zero_le _, hvacant, hall _⟩

end RobinHood
