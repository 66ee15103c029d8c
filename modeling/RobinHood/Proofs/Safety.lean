import RobinHood.Proofs.FixedDict.Sturdy
import RobinHood.Proofs.Reachable

/-!
# No internal expectation fails

Storage stays in step with its table through every call, also through one that stops, and whatever functions
of the caller do. So queries are answered, and a call stops only with a fault that its caller brought about.
-/

namespace RobinHood

variable {K V : Type}

variable [BEq K]

/-- The storage is in step, and no call to the set finds otherwise. -/
def AnySet.Dependable : AnySet K → Prop
  | .fixed s => s.Sturdy ∧
    (∀ {ε : Type} (call : FixedSet.Call K ε), WithinContract ((FixedSet.carryOut call).runOn s).1) ∧
    ∀ seeds, WithinContract (GrowSet.ofFixed s seeds)
  | .growing g => g.storage.Sturdy ∧
    ∀ {ε : Type} (call : GrowSet.Call K ε), WithinContract ((GrowSet.carryOut call).runOn g).1

def AnyDict.Dependable : AnyDict K V → Prop
  | .fixed d => d.Sturdy ∧
    (∀ {ε R : Type} (call : FixedDict.Call K V ε R), WithinContract ((FixedDict.carryOut call).runOn d).1) ∧
    ∀ seeds, WithinContract (GrowDict.ofFixed d seeds)
  | .growing g => g.storage.Sturdy ∧
    ∀ {ε R : Type} (call : GrowDict.Call K V ε R), WithinContract ((GrowDict.carryOut call).runOn g).1

variable {hasher : Hasher K}

theorem FixedSet.Upkeep.sturdy {U : FixedSet.Upkeep hasher} {c : Nat} {s : FixedSet K} (h : U.Has c s) :
    s.Sturdy := by
  obtain ⟨m, hkeeps⟩ := h
  exact sturdy_of_inStep (U.inStep hkeeps)

theorem FixedDict.Upkeep.sturdy {U : FixedDict.Upkeep V hasher} {c : Nat} {d : FixedDict K V} (h : U.Has c d) :
    d.Sturdy := by
  obtain ⟨m, hkeeps⟩ := h
  obtain ⟨s, rfl, hstep⟩ := U.entries hkeeps
  exact sturdy_of_inStep hstep

theorem AnySet.Reachable.dependable {x : AnySet K} (h : x.Reachable hasher) : x.Dependable := by
  have hkept := h.steady
  cases x with
  | fixed s =>
    obtain ⟨c, hhas⟩ := hkept
    refine ⟨FixedSet.Upkeep.sturdy hhas, fun call => (FixedSet.carryOut_safe hhas call).contract, fun seeds => ?_⟩
    obtain ⟨m, hkeeps⟩ := hhas
    exact ((FixedSet.steady hasher).adopt_made hkeeps seeds).contract
  | growing g =>
    obtain ⟨m, hheld⟩ := id hkept
    exact ⟨FixedSet.Upkeep.sturdy ⟨m, hheld.keeps⟩, fun call => (GrowSet.carryOut_safe hkept call).contract⟩

theorem AnyDict.Reachable.dependable {x : AnyDict K V} (h : x.Reachable hasher) : x.Dependable := by
  have hkept := h.keptBy (FixedDict.steady hasher)
  cases x with
  | fixed d =>
    obtain ⟨c, hhas⟩ := hkept
    refine ⟨FixedDict.Upkeep.sturdy hhas, fun call => (FixedDict.carryOut_safe hhas call).contract, fun seeds => ?_⟩
    obtain ⟨m, hkeeps⟩ := hhas
    exact ((FixedDict.steady hasher).adopt_made hkeeps seeds).contract
  | growing g =>
    obtain ⟨m, hheld⟩ := id hkept
    exact ⟨FixedDict.Upkeep.sturdy ⟨m, hheld.keeps⟩, fun call => (GrowDict.carryOut_safe hkept call).contract⟩

/-- No way of making a set fails but within the contract. -/
structure AnySet.MadeSafely (hasher : Hasher K) : Prop where
  fixed : ∀ c seed, WithinContract (FixedSet.vacant c hasher seed)
  fixedList : ∀ c seed source, WithinContract (FixedSet.ofList c hasher seed source)
  growing : ∀ minimum seeds, WithinContract (GrowSet.vacant minimum hasher seeds)
  growingList : ∀ seeds keys hint, WithinContract (GrowSet.ofList hasher seeds keys hint)

structure AnyDict.MadeSafely (V : Type) (hasher : Hasher K) : Prop where
  fixed : ∀ c seed, WithinContract (FixedDict.vacant c hasher seed : Except Fault (FixedDict K V))
  fixedList : ∀ c seed (entries : List (K × V)), WithinContract (FixedDict.ofList c hasher seed entries)
  growing : ∀ minimum seeds, WithinContract (GrowDict.vacant minimum hasher seeds : Except Fault (GrowDict K V))
  growingList : ∀ seeds (entries : List (K × V)) hint, WithinContract (GrowDict.ofList hasher seeds entries hint)

theorem AnySet.madeSafely (hasher : Hasher K) : AnySet.MadeSafely hasher where
  fixed _ _ := (FixedSet.vacant_made (FixedSet.steady hasher)).contract
  fixedList _ _ source := (FixedSet.ofList_made (FixedSet.steady hasher) source).contract
  growing _ _ := (GrowSet.vacant_made (FixedSet.steady hasher)).contract
  growingList _ keys hint := (GrowSet.ofList_made (FixedSet.steady hasher) keys hint).contract

theorem AnyDict.madeSafely (V : Type) (hasher : Hasher K) : AnyDict.MadeSafely V hasher where
  fixed _ _ := (FixedDict.vacant_made (FixedDict.steady hasher)).contract
  fixedList _ _ entries := (FixedDict.ofList_made (FixedDict.steady hasher) entries).contract
  growing _ _ := (GrowDict.vacant_made (FixedDict.steady hasher)).contract
  growingList _ entries hint := (GrowDict.ofList_made (FixedDict.steady hasher) entries hint).contract

/-- Making a container, calling one that came about in any way, and comparing two of them find every internal
expectation fulfilled. An index that addresses nothing is reported as such. -/
theorem no_internal_fault (V : Type) (hasher : Hasher K) :
    AnySet.MadeSafely hasher ∧ AnyDict.MadeSafely V hasher ∧
    (∀ x : AnySet K, x.Reachable hasher → x.Dependable) ∧
    (∀ x : AnyDict K V, x.Reachable hasher → x.Dependable) ∧
    (∀ (hasher' : Hasher K) (s t : FixedSet K), AnySet.Reachable hasher (.fixed s) →
      AnySet.Reachable hasher' (.fixed t) → Answered (s.equals (.other t))) ∧
    (∀ (hasher' : Hasher K) (d e : FixedDict K V), AnyDict.Reachable hasher (.fixed d) →
      AnyDict.Reachable hasher' (.fixed e) → ∀ {m : Type → Type} [Monad m] [LawfulMonad m] (same : V → V → m Bool),
        ∃ answer : m Bool, (d.equalsBy same (.other e)).run = Except.ok <$> answer) ∧
    Fault.indexOutOfBounds.message = "Index out of bounds" :=
  ⟨AnySet.madeSafely hasher, AnyDict.madeSafely V hasher, fun _ hx => hx.dependable, fun _ hx => hx.dependable,
    fun _ _ _ hs ht => hs.dependable.1.equals ht.dependable.1,
    fun _ _ _ hd he _ _ _ same => hd.dependable.1.equalsBy he.dependable.1 same, rfl⟩

/-- The caller's function takes the value of an entry and gives up. The entry is removed, and the other one moves
to its bucket: the index that one had is stale, and the index of the removed entry addresses it now. -/
theorem no_internal_fault_after_abort : ∃ g : GrowDict Nat String,
    AnyDict.Reachable (fun _ key => key.toUInt64) (.growing g) ∧ AnyDict.Dependable (.growing g) ∧ g.size = 1 ∧
    g.storage.entryAt 0 = .ok (2, "two") ∧ g.storage.entryAt 1 = .error .indexOutOfBounds := by
  have hnew : AnyDict.Reachable (V := String) (fun _ (key : Nat) => key.toUInt64) (.growing ⟨_, .constant 0, []⟩) :=
    .growing (rfl : GrowDict.vacant 0 _ _ = .ok _)
  have hone := hnew.callGrowing (.entry (.insert 1 "one") : GrowDict.Call Nat String Empty Empty)
  have htwo := hone.callGrowing (.entry (.insert 2 "two") : GrowDict.Call Nat String Empty Empty)
  have hless := htwo.callGrowing
    (.entry (.edit 1 fun _ => (none, .error "stop")) : GrowDict.Call Nat String Empty Empty)
  exact ⟨_, hless, (no_internal_fault String _).2.2.2.1 _ hless, rfl, rfl, rfl⟩

end RobinHood
