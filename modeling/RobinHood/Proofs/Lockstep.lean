import RobinHood.Proofs.Calls.Matching
import RobinHood.Proofs.Reachable

/-!
# Dictionaries and sets in lockstep

Dictionaries and sets go the same way: with the same hasher and the same seeds, a set that is asked for the keys what
a dictionary is asked for the entries is the set of its keys after every call and every conversion. The hasher and
the comparison of keys need not make sense for that.
-/

namespace RobinHood

variable {K V : Type} [BEq K] {hasher : Hasher K}

def AnyDict.keySet : AnyDict K V → AnySet K
  | .fixed d => .fixed d.keys
  | .growing g => .growing g.keySet

/-- The dictionaries and sets that matching runs lead to: both are made empty, with the same hasher and seeds, and go
through matching calls and the same conversions. A call that stops is part of the run as well. -/
inductive Paired (hasher : Hasher K) : AnyDict K V → AnySet K → Prop
  | fixed {c : Nat} {seed : UInt64} {d : FixedDict K V} {s : FixedSet K} (hd : FixedDict.vacant c hasher seed = .ok d)
      (hs : FixedSet.vacant c hasher seed = .ok s) : Paired hasher (.fixed d) (.fixed s)
  | growing {minimum : Nat} {seeds : Seeds} {g : GrowDict K V} {u : GrowSet K}
      (hg : GrowDict.vacant minimum hasher seeds = .ok g) (hu : GrowSet.vacant minimum hasher seeds = .ok u) :
      Paired hasher (.growing g) (.growing u)
  | callFixed {ε R : Type} {d : FixedDict K V} {s : FixedSet K} {call : FixedDict.Call K V ε R}
      {call' : FixedSet.Call K ε} (h : Paired hasher (.fixed d) (.fixed s)) (hmatch : d.Matches call call') :
      Paired hasher (.fixed ((FixedDict.carryOut call).runOn d).2) (.fixed ((FixedSet.carryOut call').runOn s).2)
  | callGrowing {ε R : Type} {g : GrowDict K V} {u : GrowSet K} {call : GrowDict.Call K V ε R}
      {call' : GrowSet.Call K ε} (h : Paired hasher (.growing g) (.growing u)) (hmatch : g.Matches call call') :
      Paired hasher (.growing ((GrowDict.carryOut call).runOn g).2) (.growing ((GrowSet.carryOut call').runOn u).2)
  | freeze {g : GrowDict K V} {u : GrowSet K} (h : Paired hasher (.growing g) (.growing u)) :
      Paired hasher (.fixed g.toFixed) (.fixed u.toFixed)
  | adopt {d : FixedDict K V} {s : FixedSet K} {seeds : Seeds} {g : GrowDict K V} {u : GrowSet K}
      (h : Paired hasher (.fixed d) (.fixed s)) (hg : GrowDict.ofFixed d seeds = .ok g)
      (hu : GrowSet.ofFixed s seeds = .ok u) : Paired hasher (.growing g) (.growing u)

/-- Fixed containers with the same table and the same keys in its buckets, which also stop at the same calls. -/
structure FixedDict.Lockstep (d : FixedDict K V) (s : FixedSet K) : Prop where
  capacity : d.capacity = s.capacity
  size : d.size = s.size
  table : d.table = s.table
  occupant : ∀ b, d.keys.slots.occupant b = s.slots.occupant b
  call : ∀ {ε R : Type} {call : Call K V ε R} {call' : FixedSet.Call K ε}, d.Matches call call' →
    Concur .dictionaryFull .setFull ((carryOut call).runOn d).1 ((FixedSet.carryOut call').runOn s).1
  adopt : ∀ seeds, GrowSet.ofFixed s seeds = GrowDict.keySet <$> GrowDict.ofFixed d seeds

/-- Growing containers of which that holds, and which have drawn the same seeds and recorded the same events. -/
structure GrowDict.Lockstep (g : GrowDict K V) (u : GrowSet K) : Prop where
  capacity : g.capacity = u.capacity
  size : g.size = u.size
  table : g.table = u.table
  occupant : ∀ b, g.storage.keys.slots.occupant b = u.storage.slots.occupant b
  seeds : g.seeds = u.seeds
  journal : g.journal = u.journal
  call : ∀ {ε R : Type} {call : Call K V ε R} {call' : GrowSet.Call K ε}, g.Matches call call' →
    Concur .capacityOverflow .capacityOverflow ((carryOut call).runOn g).1 ((GrowSet.carryOut call').runOn u).1

omit [BEq K] in
theorem GrowDict.vacant_keySet (minimum : Nat) (hasher : Hasher K) (seeds : Seeds) :
    GrowSet.vacant minimum hasher seeds = keySet <$> (vacant minimum hasher seeds : Except Fault (GrowDict K V)) := by
  rw [GrowSet.vacant, vacant]
  cases Scale.fitting minimum with
  | error fault => rfl
  | ok capacity =>
    simp only [bind, Except.bind, FixedDict.vacant_keys (V := V)]
    generalize (if capacity ≤ Table.denseLimit then (0, seeds) else seeds.draw) = drawn
    cases (FixedDict.vacant capacity hasher drawn.1 : Except Fault (FixedDict K V)) <;> rfl

theorem FixedDict.adopt_keySet {d : FixedDict K V} (h : ∃ c, (steady hasher).Has c d) (seeds : Seeds) :
    GrowSet.ofFixed d.keys seeds = GrowDict.keySet <$> GrowDict.ofFixed d seeds := by
  obtain ⟨c, m, hsteady⟩ := h
  exact (reflects hasher).adopt hsteady seeds

/-- The dictionary is one that can come about, and the set is that of its keys, whatever the run was. -/
theorem Paired.eq_keySet {x : AnyDict K V} {y : AnySet K} (h : Paired hasher x y) :
    x.Reachable hasher ∧ y = x.keySet := by
  induction h with
  | fixed hd hs =>
    rw [FixedDict.vacant_keys (V := V), hd] at hs
    cases hs
    exact ⟨.fixed hd, rfl⟩
  | growing hg hu =>
    rw [GrowDict.vacant_keySet (V := V), hg] at hu
    cases hu
    exact ⟨.growing hg, rfl⟩
  | callFixed h hmatch ih =>
    obtain ⟨hreachable, hkeys⟩ := ih
    cases hkeys
    obtain ⟨c, hhas⟩ := hreachable.keptBy (FixedDict.steady hasher)
    exact ⟨hreachable.callFixed _, congrArg AnySet.fixed (FixedDict.carryOut_paces hhas hmatch).state⟩
  | callGrowing h hmatch ih =>
    obtain ⟨hreachable, hkeys⟩ := ih
    cases hkeys
    have hkept := hreachable.keptBy (FixedDict.steady hasher)
    exact ⟨hreachable.callGrowing _, congrArg AnySet.growing (GrowDict.carryOut_paces hkept hmatch).state⟩
  | freeze h ih =>
    obtain ⟨hreachable, hkeys⟩ := ih
    cases hkeys
    exact ⟨hreachable.freeze, rfl⟩
  | adopt h hg hu ih =>
    obtain ⟨hreachable, hkeys⟩ := ih
    cases hkeys
    rw [FixedDict.adopt_keySet (hreachable.keptBy (FixedDict.steady hasher)), hg] at hu
    cases hu
    exact ⟨hreachable.adopt hg, rfl⟩

/-- Dictionaries and sets that are made alike, called alike and converted alike stay alike: they are made with the
same keys or with the same fault, and then have the same capacity, size and keys in the buckets after every step, run
out of room at the same steps, and record the same events. -/
theorem dicts_and_sets_in_lockstep (hasher : Hasher K) :
    (∀ c seed, FixedSet.vacant c hasher seed =
      FixedDict.keys <$> (FixedDict.vacant c hasher seed : Except Fault (FixedDict K V))) ∧
    (∀ minimum seeds, GrowSet.vacant minimum hasher seeds =
      GrowDict.keySet <$> (GrowDict.vacant minimum hasher seeds : Except Fault (GrowDict K V))) ∧
    (∀ (d : FixedDict K V) s, Paired hasher (.fixed d) (.fixed s) → d.Lockstep s) ∧
    ∀ (g : GrowDict K V) u, Paired hasher (.growing g) (.growing u) → g.Lockstep u := by
  refine ⟨fun c seed => FixedDict.vacant_keys c hasher seed, fun minimum seeds => GrowDict.vacant_keySet minimum hasher seeds,
    fun d s h => ?_, fun g u h => ?_⟩
  · obtain ⟨hreachable, hkeys⟩ := h.eq_keySet
    cases hkeys
    have hkept := hreachable.keptBy (FixedDict.steady hasher)
    obtain ⟨c, hhas⟩ := id hkept
    exact ⟨rfl, rfl, rfl, fun _ => rfl, fun hmatch => (FixedDict.carryOut_paces hhas hmatch).outcomes,
      FixedDict.adopt_keySet hkept⟩
  · obtain ⟨hreachable, hkeys⟩ := h.eq_keySet
    cases hkeys
    have hkept := hreachable.keptBy (FixedDict.steady hasher)
    exact ⟨rfl, rfl, rfl, fun _ => rfl, rfl, rfl, fun hmatch => (GrowDict.carryOut_paces hkept hmatch).outcomes⟩

/-- The caller's function takes one of two values and gives up. What is left moves to a smaller table, and so does what
is left of the set when the key is removed from it. -/
theorem dicts_and_sets_in_lockstep_after_abort : ∃ (g : GrowDict Nat String) (u : GrowSet Nat),
    Paired (fun seed key => seed + key.toUInt64) (.growing g) (.growing u) ∧ g.Lockstep u ∧
    g.journal = [.resized 0 28 0, .resized 28 1 1] ∧ u.storage.slots.occupant 0 = some 1 := by
  have hnew : Paired (V := String) (fun seed (key : Nat) => seed + key.toUInt64) (.growing ⟨_, .constant 7, []⟩)
      (.growing ⟨_, .constant 7, []⟩) :=
    .growing (rfl : GrowDict.vacant 0 _ _ = .ok _) (rfl : GrowSet.vacant 0 _ _ = .ok _)
  have hfilled := hnew.callGrowing (.extend (ε := Empty) (R := Empty) [(1, "a"), (33, "b")] 20)
  -- The dictionary is given a name, so that the steps before are not run again at every later one.
  obtain ⟨g, u, hpair, hheld, hjournal, hone⟩ : ∃ (g : GrowDict Nat String) (u : GrowSet Nat),
      Paired (fun seed key => seed + key.toUInt64) (.growing g) (.growing u) ∧ g.storage.get? 33 = .ok (some "b") ∧
      ((GrowDict.carryOut (.entry (.edit 33 fun _ => (none, .error "stop")) : GrowDict.Call Nat String Empty Empty)).runOn
        g).2.journal = [.resized 0 28 0, .resized 28 1 1] ∧
      ((GrowSet.carryOut (.member (.remove 33) : GrowSet.Call Nat Empty)).runOn u).2.storage.slots.occupant 0 = some 1 :=
    ⟨_, _, hfilled, rfl, by decide +kernel, by decide +kernel⟩
  have hdrop : g.Matches (.entry (.edit 33 fun _ => (none, .error "stop")) : GrowDict.Call Nat String Empty Empty)
      (.member (.remove 33)) := .entry hheld (.drop 33 _ rfl)
  have hedited := hpair.callGrowing hdrop
  exact ⟨_, _, hedited, (dicts_and_sets_in_lockstep _).2.2.2 _ _ hedited, hjournal, hone⟩

end RobinHood
