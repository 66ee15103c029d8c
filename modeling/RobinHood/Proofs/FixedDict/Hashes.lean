import RobinHood.Proofs.FixedDict.Comparison
import RobinHood.Proofs.Ledger.Revision

/-!
# Hashes of dictionaries

As for sets, a dictionary hashes to what its ledger does. The hash of an entry is that of its key and value,
whichever of several equal keys it was made with.
-/

namespace RobinHood.FixedDict

open RobinHood.Action RobinHood.Ledger

variable {K V : Type}

/-! ### Comparing hashes -/

section Hashes

variable [Digestible K] [Digestible V]

def unorderedHashBy (hash : ByteHash) (d : FixedDict K V) (seed : UInt64) : Except Fault UInt64 :=
  return xorFold ((← d.iter.toList).map fun (key, value) => hash.pair seed key value)

def feedInto {σ : Type} (hash : ByteHash) (sink : Sink σ) (d : FixedDict K V) (state : σ) : Except Fault σ :=
  sink.feedUnordered state d.size (d.unorderedHashBy hash)

theorem unorderedHash_eq_by (d : FixedDict K V) : d.unorderedHash = d.unorderedHashBy Sip.hash := rfl

theorem digestInto_eq_feedInto (d : FixedDict K V) : d.digestInto = d.feedInto Sip.hash .digests := rfl

def HashesAlike (hash : ByteHash) (d e : FixedDict K V) : Prop :=
  SameHashes d.size e.size (d.unorderedHashBy hash) (e.unorderedHashBy hash)

def HashesBy (hash : ByteHash) (change : UInt64 → UInt64) (d e : FixedDict K V) : Prop :=
  FoldedIn change (d.unorderedHashBy hash) (e.unorderedHashBy hash)

def HashesUpTo [BEq K] (hash : ByteHash) (key : K) (d e : FixedDict K V) : Prop :=
  FoldedUpTo (fun seed value => hash.pair seed key value) (d.get? key) (e.get? key) (d.unorderedHashBy hash)
    (e.unorderedHashBy hash)

end Hashes

variable [BEq K]

/-! ### Inserting with a way out -/

theorem runOn_tryInsert_state (key : K) (value : V) (d : FixedDict K V) :
    ((tryInsert key value).runOn d).2 = ((insert key value).runOn d).2 := by
  simp only [tryInsert, insert, runOn_get_bind]
  cases d.keys.search key with
  | error fault => rfl
  | ok probe =>
    simp only [runOn_ok_bind]
    split
    · rfl
    · simp only [runOn_get_bind]
      split
      · rw [runOn_bind_error (runOn_insertNew_full (beq_iff_eq.mp ‹_›))]
        rfl
      · rw [runOn_bind, runOn_bind]
        split <;> rfl

/-! ### Agreement -/

/-- The dictionaries have the same values under all keys apart from `key`, which either may have or not. -/
def AgreeBut (key : K) (d e : FixedDict K V) : Prop :=
  ∀ k, (k == key) = false → d.get? k = e.get? k

variable [EquivBEq K] {hasher hasher' : Hasher K} {c c' : Nat} {d e : FixedDict K V} {m m' : List (K × V)} {key : K}

theorem Keeps.agreeBut (hd : Keeps hasher c d m) (he : Keeps hasher' c' e m') (hlawful : hasher.Lawful)
    (hlawful' : hasher'.Lawful) (hstrike : strike Prod.fst m' key = strike Prod.fst m key) : AgreeBut key d e := by
  intro k hk
  rw [hd.get? hlawful, he.get? hlawful', Ledger.value, Ledger.value, ← lookup_strike_of_ne hk, ← hstrike,
    lookup_strike_of_ne hk]

/-- Dictionaries that agree apart from a key agree, if it is missing from both. -/
theorem Keeps.value_eq_of_agreeBut (hd : Keeps hasher c d m) (he : Keeps hasher' c' e m') (hlawful : hasher.Lawful)
    (hlawful' : hasher'.Lawful) (hagree : d.AgreeBut key e) (hmissing : Ledger.value m key = none)
    (hmissing' : Ledger.value m' key = none) (k : K) : Ledger.value m k = Ledger.value m' k := by
  by_cases hk : (k == key) = true
  · rw [Ledger.value, lookup_congr Prod.fst m hk, Ledger.value, lookup_congr Prod.fst m' hk]
    exact hmissing.trans hmissing'.symm
  · have hget := hagree k (Bool.not_eq_true _ ▸ hk)
    rwa [hd.get? hlawful, he.get? hlawful', Except.ok.injEq] at hget

theorem Keeps.size_eq (hd : Keeps hasher c d m) (he : Keeps hasher' c' e m')
    (hsame : ∀ k, (Ledger.value m k).isSome = (Ledger.value m' k).isSome) : d.size = e.size := by
  obtain ⟨s, rfl, -, hd⟩ := hd
  obtain ⟨t, rfl, -, he⟩ := he
  simp only [isSome_value] at hsame
  exact (hd.count.trans ((hd.distinct.same_keys_iff he.distinct).mp hsame).1).trans he.count.symm

variable [Digestible K] [Digestible V]

/-! ### Hashes of ledgers -/

def hashEntry (hash : ByteHash) (seed : UInt64) (entry : K × V) : UInt64 :=
  hash.pair seed entry.1 entry.2

omit [EquivBEq K] in
theorem Keeps.unorderedHashBy_eq (h : Keeps hasher c d m) (hash : ByteHash) (seed : UInt64) :
    d.unorderedHashBy hash seed = .ok (xorFold (m.map (hashEntry hash seed))) := by
  obtain ⟨s, rfl, -, hkeeps⟩ := h
  rw [unorderedHashBy, toList_iter hkeeps.orderly.toInStep, ← xorFold_perm (hkeeps.elements.map _)]
  rfl

omit [EquivBEq K] in
theorem map_lookup_eq (hkeys : ∀ a b : K, (a == b) = true → bytes a = bytes b) (hash : ByteHash) (seed : UInt64)
    (m : List (K × V)) (key : K) :
    (lookup Prod.fst m key).map (hashEntry hash seed) = (Ledger.value m key).map (hash.pair seed key) := by
  rw [Ledger.value]
  cases hlookup : lookup Prod.fst m key with
  | none => rfl
  | some entry => exact congrArg some (hash.pair_congr seed (hkeys entry.1 key (mem_of_lookup hlookup).2) rfl)

/-- Dictionaries with the same hashes under every key hash alike. -/
theorem Keeps.hashesAlike (hd : Keeps hasher c d m) (he : Keeps hasher' c' e m')
    (hkeys : ∀ a b : K, (a == b) = true → bytes a = bytes b)
    {hash : ByteHash}
    (hsame : ∀ seed k, (Ledger.value m k).map (hash.pair seed k) = (Ledger.value m' k).map (hash.pair seed k)) :
    HashesAlike hash d e := by
  have hsize : d.size = e.size := by
    apply hd.size_eq he
    intro k
    rw [← Option.isSome_map, hsame 0 k, Option.isSome_map]
  refine .of_eq hsize (hd.unorderedHashBy_eq hash) fun seed => ?_
  rw [he.unorderedHashBy_eq]
  congr 1
  obtain ⟨s, -, -, hd⟩ := hd
  obtain ⟨t, -, -, he⟩ := he
  apply he.distinct.xorFold_congr hd.distinct
  intro k
  rw [map_lookup_eq hkeys, map_lookup_eq hkeys, hsame seed k]

theorem Keeps.hashesUpTo (hd : Keeps hasher c d m) (he : Keeps hasher' c' e m') (hlawful : hasher.Lawful)
    (hlawful' : hasher'.Lawful) (hkeys : ∀ a b : K, (a == b) = true → bytes a = bytes b) (hagree : d.AgreeBut key e)
    (hash : ByteHash) : HashesUpTo hash key d e := by
  refine ⟨_, _, hd.get? hlawful key, he.get? hlawful' key, fun seed => ⟨_, hd.unorderedHashBy_eq hash seed, ?_⟩⟩
  rw [he.unorderedHashBy_eq, ← UInt64.xor_assoc, hashIfAny, hashIfAny, ← map_lookup_eq hkeys, ← map_lookup_eq hkeys]
  congr 1
  have hsame : ∀ k, (k == key) = false → Ledger.value m k = Ledger.value m' k := by
    intro k hk
    have hget := hagree k hk
    rwa [hd.get? hlawful, he.get? hlawful', Except.ok.injEq] at hget
  obtain ⟨s, -, -, hd⟩ := hd
  obtain ⟨t, -, -, he⟩ := he
  apply hd.distinct.xorFold_revised he.distinct
  intro k hk
  rw [map_lookup_eq hkeys, map_lookup_eq hkeys, hsame k hk]

theorem Keeps.hashesAlike_of_agree [BEq V] (hd : Keeps hasher c d m) (he : Keeps hasher' c' e m')
    (hlawful : hasher.Lawful) (hlawful' : hasher'.Lawful) (hkeys : ∀ a b : K, (a == b) = true → bytes a = bytes b)
    (hvalues : ∀ v w : V, (v == w) = true → bytes v = bytes w)
    (hagree : Agree (fun value counterpart => value == counterpart) d e) (hash : ByteHash) : HashesAlike hash d e := by
  apply hd.hashesAlike he hkeys
  intro seed k
  have hcontains : d.contains k = .ok true ↔ e.contains k = .ok true := hagree.1 k
  have hequal := hagree.2 k
  rw [hd.contains hlawful, he.contains hlawful', Except.ok.injEq, Except.ok.injEq] at hcontains
  rw [hd.get? hlawful, he.get? hlawful'] at hequal
  cases hvalue : Ledger.value m k with
  | none =>
    cases hcounterpart : Ledger.value m' k with
    | none => rfl
    | some counterpart => simp [hvalue, hcounterpart] at hcontains
  | some value =>
    cases hcounterpart : Ledger.value m' k with
    | none => simp [hvalue, hcounterpart] at hcontains
    | some counterpart =>
      have hsame := hequal value counterpart (by rw [hvalue]) (by rw [hcounterpart])
      exact congrArg some (hash.pair_congr seed rfl (hvalues value counterpart hsame))

end RobinHood.FixedDict
