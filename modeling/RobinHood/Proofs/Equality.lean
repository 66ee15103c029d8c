import RobinHood.Proofs.FixedDict.Comparison
import RobinHood.Proofs.Reachable

/-!
# Equality is that of the contents

Sets are equal if they have the same keys, and dictionaries if they also have equal values under them, in
whatever buckets, with whatever hashes and after whatever history. A comparison may therefore be made from
either side, and goes through a container in between.
-/

namespace RobinHood

variable {K V : Type}

def AnySet.storage : AnySet K → FixedSet K
  | .fixed s => s
  | .growing g => g.storage

def AnyDict.storage : AnyDict K V → FixedDict K V
  | .fixed d => d
  | .growing g => g.storage

variable [BEq K]

/-- The sets are not one and the same, and are found equal. -/
def AnySet.Equal (s t : AnySet K) : Prop :=
  s.storage.equals (.other t.storage) = .ok true

def AnyDict.Equal [BEq V] (d e : AnyDict K V) : Prop :=
  d.storage.equals (.other e.storage) = .ok true

instance [BEq V] (d e : AnyDict K V) : Decidable (d.Equal e) :=
  match h : d.storage.equals (.other e.storage) with
  | .ok true => .isTrue h
  | .ok false => .isFalse fun hequal => nomatch h.symm.trans hequal
  | .error _ => .isFalse fun hequal => nomatch h.symm.trans hequal

variable {hasher hasher' : Hasher K}

theorem AnySet.Reachable.storage {s : AnySet K} (hs : s.Reachable hasher) :
    AnySet.Reachable hasher (.fixed s.storage) := by
  cases s with
  | fixed s => exact hs
  | growing g => exact hs.freeze

theorem AnyDict.Reachable.storage {d : AnyDict K V} (hd : d.Reachable hasher) :
    AnyDict.Reachable hasher (.fixed d.storage) := by
  cases d with
  | fixed d => exact hd
  | growing g => exact hd.freeze

variable [EquivBEq K]

theorem AnySet.Reachable.keeps {s : AnySet K} (hs : s.Reachable hasher) (hlawful : hasher.Lawful) :
    ∃ c m, FixedSet.Keeps hasher c s.storage m :=
  hs.storage.lawful hlawful

theorem AnyDict.Reachable.keeps {d : AnyDict K V} (hd : d.Reachable hasher) (hlawful : hasher.Lawful) :
    ∃ c m, FixedDict.Keeps hasher c d.storage m :=
  hd.storage.keptBy (FixedDict.lawful hlawful)

theorem AnySet.Reachable.exists_equals {s t : AnySet K} (hs : s.Reachable hasher) (ht : t.Reachable hasher')
    (hlawful : hasher.Lawful) (hlawful' : hasher'.Lawful) :
    ∃ same, s.storage.equals (.other t.storage) = .ok same ∧ (same = true ↔ s.storage.SameKeys t.storage) := by
  obtain ⟨c, m, hs⟩ := hs.keeps hlawful
  obtain ⟨c', m', ht⟩ := ht.keeps hlawful'
  exact hs.exists_equals ht hlawful hlawful'

theorem AnySet.Reachable.equal_iff {s t : AnySet K} (hs : s.Reachable hasher) (ht : t.Reachable hasher')
    (hlawful : hasher.Lawful) (hlawful' : hasher'.Lawful) : s.Equal t ↔ s.storage.SameKeys t.storage := by
  obtain ⟨same, hequals, hiff⟩ := hs.exists_equals ht hlawful hlawful'
  rw [AnySet.Equal, hequals, ← hiff, Except.ok.injEq]

theorem AnyDict.Reachable.exists_equals [BEq V] {d e : AnyDict K V} (hd : d.Reachable hasher)
    (he : e.Reachable hasher') (hlawful : hasher.Lawful) (hlawful' : hasher'.Lawful) :
    ∃ same, d.storage.equals (.other e.storage) = .ok same ∧
      (same = true ↔ FixedDict.Agree (fun value counterpart => value == counterpart) d.storage e.storage) := by
  obtain ⟨c, m, hd⟩ := hd.keeps hlawful
  obtain ⟨c', m', he⟩ := he.keeps hlawful'
  obtain ⟨same, calls, hcompares⟩ := hd.exists_compares he hlawful hlawful' fun value counterpart =>
    value == counterpart
  exact ⟨same, hcompares.pure, hcompares.agree⟩

theorem AnyDict.Reachable.equal_iff [BEq V] {d e : AnyDict K V} (hd : d.Reachable hasher) (he : e.Reachable hasher')
    (hlawful : hasher.Lawful) (hlawful' : hasher'.Lawful) :
    d.Equal e ↔ FixedDict.Agree (fun value counterpart => value == counterpart) d.storage e.storage := by
  obtain ⟨same, hequals, hiff⟩ := hd.exists_equals he hlawful hlawful'
  rw [AnyDict.Equal, hequals, ← hiff, Except.ok.injEq]

/-- Two sets, or two dictionaries, are compared by what they contain, although only one side is gone through. -/
theorem equality_extensional [BEq V] {hasher'' : Hasher K} (hlawful : hasher.Lawful) (hlawful' : hasher'.Lawful)
    (hlawful'' : hasher''.Lawful) :
    (∀ s t : AnySet K, s.Reachable hasher → t.Reachable hasher' →
      ∃ same, s.storage.equals (.other t.storage) = .ok same ∧ (same = true ↔ s.storage.SameKeys t.storage)) ∧
    (∀ d e : AnyDict K V, d.Reachable hasher → e.Reachable hasher' →
      (∃ asked alike, FixedDict.Asks d.storage e.storage asked alike) ∧
      (∀ f : V → V → Bool, ∃ answer calls, FixedDict.Compares f d.storage e.storage answer calls) ∧
      ∃ same, d.storage.equals (.other e.storage) = .ok same ∧
        (same = true ↔ FixedDict.Agree (fun value counterpart => value == counterpart) d.storage e.storage)) ∧
    (∀ s t : AnySet K, s.Reachable hasher → t.Reachable hasher' → s.Equal t → t.Equal s) ∧
    (∀ s t u : AnySet K, s.Reachable hasher → t.Reachable hasher' → u.Reachable hasher'' →
      s.Equal t → t.Equal u → s.Equal u) ∧
    ((∀ v w : V, (v == w) = true → (w == v) = true) →
      ∀ d e : AnyDict K V, d.Reachable hasher → e.Reachable hasher' → d.Equal e → e.Equal d) ∧
    ((∀ u v w : V, (u == v) = true → (v == w) = true → (u == w) = true) →
      ∀ d e z : AnyDict K V, d.Reachable hasher → e.Reachable hasher' → z.Reachable hasher'' →
        d.Equal e → e.Equal z → d.Equal z) := by
  refine ⟨?_, ?_, ?_, ?_, ?_, ?_⟩
  · exact fun s t hs ht => hs.exists_equals ht hlawful hlawful'
  · intro d e hd he
    have hequals := hd.exists_equals he hlawful hlawful'
    obtain ⟨c, m, hd⟩ := hd.keeps hlawful
    obtain ⟨c', m', he⟩ := he.keeps hlawful'
    exact ⟨hd.exists_asks he hlawful hlawful', hd.exists_compares he hlawful hlawful', hequals⟩
  · intro s t hs ht
    rw [hs.equal_iff ht hlawful hlawful', ht.equal_iff hs hlawful' hlawful]
    exact fun hkeys key => (hkeys key).symm
  · intro s t u hs ht hu
    rw [hs.equal_iff ht hlawful hlawful', ht.equal_iff hu hlawful' hlawful'', hs.equal_iff hu hlawful hlawful'']
    exact fun hkeys hkeys' key => (hkeys key).trans (hkeys' key)
  · intro hsymm d e hd he
    rw [hd.equal_iff he hlawful hlawful', he.equal_iff hd hlawful' hlawful]
    exact FixedDict.Agree.symm hsymm
  · intro htrans d e z hd he hz
    rw [hd.equal_iff he hlawful hlawful', he.equal_iff hz hlawful' hlawful'', hd.equal_iff hz hlawful hlawful'']
    obtain ⟨c, m, hd⟩ := hd.keeps hlawful
    obtain ⟨c', m', he⟩ := he.keeps hlawful'
    exact FixedDict.Agree.trans htrans hd he hlawful hlawful'

/-- Three dictionaries with the same entries: one is searched from end to end, another is probed, with other hashes,
and has lost a key, and the third is a growing one. The first two are compared by a relation that refuses the values under
the second key. -/
theorem equality_extensional_across_layouts :
    ∃ (d e z : AnyDict Nat Nat) (calls : List (FixedDict.Shared Nat Nat)),
      d.Reachable (fun _ key => key.toUInt64) ∧ e.Reachable (fun seed key => seed - key.toUInt64) ∧
      z.Reachable (fun _ key => key.toUInt64) ∧
      d.storage.table.isDense = true ∧ e.storage.table.isDense = false ∧
      d.storage.keys.slots.elements = [7, 1, 4] ∧ e.storage.keys.slots.elements = [1, 7, 4] ∧
      z.storage.keys.slots.elements = [4, 1, 7] ∧
      d.Equal e ∧ e.Equal d ∧ e.Equal z ∧ d.Equal z ∧
      FixedDict.Compares (fun value _ => value != 10) d.storage e.storage false calls ∧
      calls.map FixedDict.Shared.values = [(70, 70), (10, 10)] := by
  have hnew : AnyDict.Reachable (V := Nat) (fun _ (key : Nat) => key.toUInt64) (.fixed ⟨_, _⟩) :=
    .fixed (rfl : FixedDict.vacant 4 _ 0 = .ok _)
  have hseven := hnew.callFixed (.entry (.insert 7 70) : FixedDict.Call Nat Nat Empty Empty)
  have hone := hseven.callFixed (.entry (.insert 1 10) : FixedDict.Call Nat Nat Empty Empty)
  have hd := hone.callFixed (.entry (.insert 4 40) : FixedDict.Call Nat Nat Empty Empty)
  have hnew' : AnyDict.Reachable (V := Nat) (fun seed (key : Nat) => seed - key.toUInt64) (.fixed ⟨_, _⟩) :=
    .fixed (rfl : FixedDict.vacant 20 _ 2 = .ok _)
  have hfour := hnew'.callFixed (.entry (.insert 4 40) : FixedDict.Call Nat Nat Empty Empty)
  have hthree := hfour.callFixed (.entry (.insert 3 30) : FixedDict.Call Nat Nat Empty Empty)
  have hone' := hthree.callFixed (.entry (.insert 1 10) : FixedDict.Call Nat Nat Empty Empty)
  have hseven' := hone'.callFixed (.entry (.insert 7 70) : FixedDict.Call Nat Nat Empty Empty)
  have he := hseven'.callFixed (.entry (.remove 3) : FixedDict.Call Nat Nat Empty Empty)
  have hnew'' : AnyDict.Reachable (V := Nat) (fun _ (key : Nat) => key.toUInt64) (.growing ⟨_, .constant 0, []⟩) :=
    .growing (rfl : GrowDict.vacant 0 _ _ = .ok _)
  have hz := hnew''.callGrowing (.extend [(4, 40), (1, 10), (7, 70)] 0 : GrowDict.Call Nat Nat Empty Empty)
  have hlawful : Hasher.Lawful (fun _ (key : Nat) => key.toUInt64) := fun _ a b hab => by rw [eq_of_beq hab]
  have hlawful' : Hasher.Lawful (fun seed (key : Nat) => seed - key.toUInt64) := fun _ a b hab => by
    rw [eq_of_beq hab]
  obtain ⟨-, hdicts, -, -, hsymm, htrans⟩ := equality_extensional (V := Nat) hlawful hlawful' hlawful
  obtain ⟨answer, calls, hcompares⟩ := (hdicts _ _ hd he).2.1 fun value _ => value != 10
  have hran : (Except.ok answer, calls.map FixedDict.Shared.values) = (Except.ok false, [(70, 70), (10, 10)]) :=
    hcompares.run.symm.trans rfl
  obtain ⟨hanswer, hcalls⟩ := Prod.mk.inj hran
  cases hanswer
  refine ⟨_, _, _, calls, hd, he, hz, rfl, rfl, by decide +kernel, by decide +kernel, by decide +kernel,
    by decide +kernel, ?_, by decide +kernel, ?_, hcompares, hcalls⟩
  · exact hsymm (fun _ _ => BEq.symm) _ _ hd he (by decide +kernel)
  · exact htrans (fun _ _ _ => BEq.trans) _ _ _ hd he hz (by decide +kernel) (by decide +kernel)

end RobinHood
