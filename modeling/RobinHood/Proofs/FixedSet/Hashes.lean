import RobinHood.Proofs.FixedSet
import RobinHood.Proofs.Ledger.Revision

/-!
# Hashes of sets

A set hashes to what its ledger does, wherever the members sit. So sets with the same keys hash alike, and
a change under one key shows in the hash as what was and what is under that key.
-/

namespace RobinHood.FixedSet

open RobinHood.Action RobinHood.Ledger

variable {K : Type}

/-! ### Comparing hashes -/

section Hashes

variable [Digestible K]

/-- The unordered hash, with any hash of bytes in place of the usual one. -/
def unorderedHashBy (hash : ByteHash) (s : FixedSet K) (seed : UInt64) : Except Fault UInt64 :=
  return xorFold ((← s.iter.toList).map (hash.member seed))

def feedInto {σ : Type} (hash : ByteHash) (sink : Sink σ) (s : FixedSet K) (state : σ) : Except Fault σ :=
  sink.feedUnordered state s.size (s.unorderedHashBy hash)

theorem unorderedHash_eq_by (s : FixedSet K) : s.unorderedHash = s.unorderedHashBy Sip.hash := rfl

theorem digestInto_eq_feedInto (s : FixedSet K) : s.digestInto = s.feedInto Sip.hash .digests := rfl

/-- Neither the hashes of the sets tell them apart, nor what they feed to any state. -/
def HashesAlike (hash : ByteHash) (s t : FixedSet K) : Prop :=
  SameHashes s.size t.size (s.unorderedHashBy hash) (t.unorderedHashBy hash)

/-- The hashes of `t` are those of `s` with another one folded in. -/
def HashesBy (hash : ByteHash) (change : UInt64 → UInt64) (s t : FixedSet K) : Prop :=
  FoldedIn change (s.unorderedHashBy hash) (t.unorderedHashBy hash)

/-- The hashes differ by those of the members under `key`. -/
def HashesUpTo [BEq K] (hash : ByteHash) (key : K) (s t : FixedSet K) : Prop :=
  FoldedUpTo hash.member (s.get? key) (t.get? key) (s.unorderedHashBy hash)
    (t.unorderedHashBy hash)

end Hashes

variable [BEq K]

/-! ### Inserting with a way out -/

/-- Handing a key back that does not fit leaves what a refusal would. -/
theorem runOn_tryInsert_state (key : K) (s : FixedSet K) :
    ((tryInsert key).runOn s).2 = ((insert key).runOn s).2 := by
  simp only [tryInsert, insert, runOn_get_bind]
  cases s.search key with
  | error fault => rfl
  | ok probe =>
    simp only [runOn_ok_bind]
    split
    · rfl
    · simp only [runOn_get_bind]
      split
      · rw [runOn_bind_error (runOn_insertNew_full (beq_iff_eq.mp ‹_›))]
        rfl
      · rw [runOn_bind, runOn_bind]
        split <;> rfl

/-! ### Agreement -/

/-- The sets have equal keys apart from `key`, which either may have or not. -/
def AgreeBut (key : K) (s t : FixedSet K) : Prop :=
  ∀ k, (k == key) = false → s.contains k = t.contains k

section Agreement

variable [EquivBEq K] {hasher hasher' : Hasher K} {c c' : Nat} {s t : FixedSet K} {m m' : List K} {key : K}

theorem Keeps.agreeBut (hs : Keeps hasher c s m) (ht : Keeps hasher' c' t m') (hlawful : hasher.Lawful)
    (hlawful' : hasher'.Lawful) (hstrike : strike id m' key = strike id m key) : AgreeBut key s t := by
  intro k hk
  rw [hs.contains hlawful, ht.contains hlawful', member, member, ← lookup_strike_of_ne hk, ← hstrike,
    lookup_strike_of_ne hk]

theorem Keeps.sameKeys_of_agreeBut (hs : Keeps hasher c s m) (ht : Keeps hasher' c' t m') (hlawful : hasher.Lawful)
    (hlawful' : hasher'.Lawful) (hagree : s.AgreeBut key t) (hmissing : member m key = none)
    (hmissing' : member m' key = none) : s.SameKeys t := by
  intro k
  by_cases hk : (k == key) = true
  · rw [hs.contains hlawful, ht.contains hlawful', member, member, lookup_congr id m hk, lookup_congr id m' hk]
    rw [member] at hmissing hmissing'
    rw [hmissing, hmissing']
  · rw [hagree k (Bool.not_eq_true _ ▸ hk)]

end Agreement

variable [Digestible K]

/-! ### Hashes of ledgers -/

variable {hasher hasher' : Hasher K} {c c' : Nat} {s t : FixedSet K} {m m' : List K} {key : K}

theorem Keeps.unorderedHashBy_eq (h : Keeps hasher c s m) (hash : ByteHash) (seed : UInt64) :
    s.unorderedHashBy hash seed = .ok (xorFold (m.map (hash.member seed))) := by
  rw [unorderedHashBy, toList_iter h.seating.orderly.toInStep, ← xorFold_perm (h.seating.elements.map _)]
  rfl

theorem map_member_eq (hkeys : ∀ a b : K, (a == b) = true → bytes a = bytes b) (hash : ByteHash) (seed : UInt64)
    (m : List K) (key : K) :
    (member m key).map (hash.member seed) = if (member m key).isSome then some (hash.member seed key) else none := by
  cases hmember : member m key with
  | none => rfl
  | some x => exact congrArg some (hash.member_congr seed (hkeys x key (mem_of_lookup hmember).2))

variable [EquivBEq K]

theorem Keeps.hashesAlike (hs : Keeps hasher c s m) (ht : Keeps hasher' c' t m') (hlawful : hasher.Lawful)
    (hlawful' : hasher'.Lawful) (hkeys : ∀ a b : K, (a == b) = true → bytes a = bytes b) (hsame : s.SameKeys t)
    (hash : ByteHash) : HashesAlike hash s t := by
  rw [hs.sameKeys_iff ht hlawful hlawful'] at hsame
  have hlength := ((hs.seating.distinct.same_keys_iff ht.seating.distinct).mp hsame).1
  have hsize : s.size = t.size := (hs.seating.count.trans hlength).trans ht.seating.count.symm
  refine .of_eq hsize (hs.unorderedHashBy_eq hash) fun seed => ?_
  rw [ht.unorderedHashBy_eq]
  congr 1
  apply ht.seating.distinct.xorFold_congr hs.seating.distinct
  intro k
  have hk := (map_member_eq hkeys hash seed m' k).trans (by rw [← hsame k])
  exact hk.trans (map_member_eq hkeys hash seed m k).symm

theorem Keeps.hashesUpTo (hs : Keeps hasher c s m) (ht : Keeps hasher' c' t m') (hlawful : hasher.Lawful)
    (hlawful' : hasher'.Lawful) (hkeys : ∀ a b : K, (a == b) = true → bytes a = bytes b) (hagree : s.AgreeBut key t)
    (hash : ByteHash) : HashesUpTo hash key s t := by
  refine ⟨_, _, hs.get? hlawful key, ht.get? hlawful' key, fun seed => ⟨_, hs.unorderedHashBy_eq hash seed, ?_⟩⟩
  rw [ht.unorderedHashBy_eq, ← UInt64.xor_assoc]
  congr 1
  apply hs.seating.distinct.xorFold_revised ht.seating.distinct
  intro k hk
  have hcontains := hagree k hk
  rw [hs.contains hlawful, ht.contains hlawful', Except.ok.injEq] at hcontains
  have hbefore := map_member_eq hkeys hash seed m k
  rw [hcontains] at hbefore
  exact hbefore.trans (map_member_eq hkeys hash seed m' k).symm

end RobinHood.FixedSet
