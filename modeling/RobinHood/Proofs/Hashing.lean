import Mathlib.Data.List.Perm.Basic
import RobinHood.Fault
import RobinHood.Hashing.Digest

/-!
# Hashes in no order

Hashes that are folded with exclusive or come to the same in every order, and a hash that is folded in twice
cancels out. Which hash of bytes is folded does not matter for this. A container can be fed to any state that
takes words in and can be asked for a hash; digests are such states.
-/

namespace RobinHood

/-! ### Folding -/

theorem xorFold_cons (hash : UInt64) (hashes : List UInt64) : xorFold (hash :: hashes) = hash ^^^ xorFold hashes := by
  have hassoc : hashes.foldl (· ^^^ ·) (hash ^^^ 0) = hash ^^^ xorFold hashes := List.foldl_assoc
  rw [xorFold, List.foldl_cons, UInt64.zero_xor, ← hassoc, UInt64.xor_zero]

theorem xorFold_perm {hashes hashes' : List UInt64} (h : hashes.Perm hashes') : xorFold hashes = xorFold hashes' := by
  refine h.foldl_eq' (fun x _ y _ z => ?_) 0
  rw [UInt64.xor_assoc, UInt64.xor_comm x, UInt64.xor_assoc]

def hashIfAny {α : Type} (hash : α → UInt64) (held : Option α) : UInt64 :=
  (held.map hash).getD 0

/-! ### Hashes of members -/

abbrev ByteHash := List UInt8 → UInt64

namespace ByteHash

variable {α β : Type} [Digestible α] [Digestible β]

def member (hash : ByteHash) (seed : UInt64) (x : α) : UInt64 :=
  hash (bytes seed ++ bytes x)

def pair (hash : ByteHash) (seed : UInt64) (x : α) (y : β) : UInt64 :=
  hash (bytes seed ++ bytes x ++ bytes y)

theorem member_congr (hash : ByteHash) (seed : UInt64) {a b : α} (h : bytes a = bytes b) :
    hash.member seed a = hash.member seed b := by
  rw [member, h, member]

theorem pair_congr (hash : ByteHash) (seed : UInt64) {a b : α} {x y : β} (h : bytes a = bytes b)
    (h' : bytes x = bytes y) : hash.pair seed a x = hash.pair seed b y := by
  rw [pair, h, h', pair]

end ByteHash

/-! ### Feeding -/

/-- A state that is fed words and can be asked for a hash. It may take a count in its own way. -/
structure Sink (σ : Type) where
  finish : σ → UInt64
  feedCount : σ → UInt64 → σ
  feedWord : σ → UInt64 → σ

namespace Sink

variable {σ : Type}

def feedUnordered {m : Type → Type} [Monad m] (sink : Sink σ) (state : σ) (count : Nat)
    (aggregate : UInt64 → m UInt64) : m σ := do
  let seed := sink.finish state
  return sink.feedWord (sink.feedCount state count.toUInt64) (← aggregate seed)

def digests : Sink Digest where
  finish := Digest.finish
  feedCount := Digest.feed
  feedWord := Digest.feed

theorem feedUnordered_ok {ε : Type} (sink : Sink σ) (state : σ) (count : Nat)
    {aggregate : UInt64 → Except ε UInt64} {hash : UInt64 → UInt64} (h : ∀ seed, aggregate seed = .ok (hash seed)) :
    sink.feedUnordered state count aggregate =
      .ok (sink.feedWord (sink.feedCount state count.toUInt64) (hash (sink.finish state))) := by
  rw [feedUnordered, h]
  rfl

end Sink

/-! ### Comparing hashes -/

section Compare

variable {α : Type} {count count' : Nat} {hashes hashes' : UInt64 → Except Fault UInt64}

/-- Two containers, of which only the counts and the hashes for every seed are given, are not told apart by these
hashes, nor by what they feed to any state. -/
structure SameHashes (count count' : Nat) (hashes hashes' : UInt64 → Except Fault UInt64) : Prop where
  unordered : ∀ seed, ∃ common, hashes seed = .ok common ∧ hashes' seed = .ok common
  fed : ∀ {σ : Type} (sink : Sink σ) (state : σ), ∃ common,
    sink.feedUnordered state count hashes = .ok common ∧ sink.feedUnordered state count' hashes' = .ok common

theorem SameHashes.of_eq {common : UInt64 → UInt64} (hcount : count = count')
    (hhashes : ∀ seed, hashes seed = .ok (common seed)) (hhashes' : ∀ seed, hashes' seed = .ok (common seed)) :
    SameHashes count count' hashes hashes' := by
  refine ⟨fun seed => ⟨_, hhashes seed, hhashes' seed⟩,
    fun sink state => ⟨_, sink.feedUnordered_ok state count hhashes, ?_⟩⟩
  rw [hcount]
  exact sink.feedUnordered_ok state count' hhashes'

def FoldedIn (change : UInt64 → UInt64) (hashes hashes' : UInt64 → Except Fault UInt64) : Prop :=
  ∀ seed, ∃ before, hashes seed = .ok before ∧ hashes' seed = .ok (before ^^^ change seed)

/-- The hashes differ by those of what is `held` in the one container and in the other. -/
def FoldedUpTo (hashOf : UInt64 → α → UInt64) (held held' : Except Fault (Option α))
    (hashes hashes' : UInt64 → Except Fault UInt64) : Prop :=
  ∃ before after, held = .ok before ∧ held' = .ok after ∧
    FoldedIn (fun seed => hashIfAny (hashOf seed) before ^^^ hashIfAny (hashOf seed) after) hashes hashes'

variable {hashOf : UInt64 → α → UInt64} {held held' : Except Fault (Option α)} {x : α}

theorem FoldedUpTo.of_inserted (h : FoldedUpTo hashOf held held' hashes hashes') (hheld : held = .ok none)
    (hheld' : held' = .ok (some x)) : FoldedIn (fun seed => hashOf seed x) hashes hashes' := by
  obtain ⟨before, after, hbefore, hafter, hfolded⟩ := h
  obtain rfl : none = before := Except.ok.inj (hheld.symm.trans hbefore)
  obtain rfl : some x = after := Except.ok.inj (hheld'.symm.trans hafter)
  simpa only [hashIfAny, Option.map, Option.getD, UInt64.zero_xor] using hfolded

theorem FoldedUpTo.of_removed (h : FoldedUpTo hashOf held held' hashes hashes') (hheld : held = .ok (some x))
    (hheld' : held' = .ok none) : FoldedIn (fun seed => hashOf seed x) hashes hashes' := by
  obtain ⟨before, after, hbefore, hafter, hfolded⟩ := h
  obtain rfl : some x = before := Except.ok.inj (hheld.symm.trans hbefore)
  obtain rfl : none = after := Except.ok.inj (hheld'.symm.trans hafter)
  simpa only [hashIfAny, Option.map, Option.getD, UInt64.xor_zero] using hfolded

end Compare

end RobinHood
