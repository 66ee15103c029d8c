import RobinHood.Proofs.Hashing
import RobinHood.Proofs.Ledger.Dicts
import RobinHood.Proofs.Ledger.Sets

/-!
# Ledgers that differ under one key

A request about one key leaves the entries under all other keys as they are. Where two ledgers differ under one
key at most, so do their hashes: by what is under that key in either.
-/

namespace RobinHood

/-- The key that the request is about, unless it is about all of them. -/
def SetRequest.key? {K : Type} : SetRequest K → Option K
  | insert key | update key | remove key | get key | contains key | locate key => some key
  | clear _ => none

def DictRequest.key? {K V ε R : Type} : DictRequest K V ε R → Option K
  | insert key _ | update key _ | replace key _ | get key | contains key | memoize key _ | tryMemoize key _
  | edit key _ | remove key | removeEntry key => some key
  | clear _ => none

namespace Ledger

variable {α K : Type} [BEq K] {keyOf : α → K} {m m' : List α} {x : α} {k key : K}

/-! ### What stays under the other keys -/

theorem strike_strike : strike keyOf (strike keyOf m key) key = strike keyOf m key := by
  rw [strike, strike, List.filter_filter]
  simp only [Bool.and_self]

theorem strike_enter {β : Type} (room : Room) (hx : (keyOf x == key) = true) (answer : β) :
    strike keyOf (enter room m x answer).2 key = strike keyOf m key := by
  rw [enter]
  split
  · rw [strike, List.filter_cons_of_neg (by simp [hx]), strike]
  · rfl

theorem strike_amend {f : α → α} (hf : ∀ x, (keyOf x == key) = true → (keyOf (f x) == key) = true) :
    strike keyOf (amend keyOf f m key) key = strike keyOf m key := by
  induction m with
  | nil => rfl
  | cons y rest ih =>
    rw [amend, List.map_cons, ← amend]
    by_cases hy : (keyOf y == key) = true
    · rw [if_pos hy, strike, List.filter_cons_of_neg (by simp [hf y hy]), ← strike, ih, strike, strike,
        List.filter_cons_of_neg (by simp [hy])]
    · rw [if_neg hy, strike, List.filter_cons_of_pos (by simp [hy]), ← strike, ih, strike, strike,
        List.filter_cons_of_pos (by simp [hy])]

section Requests

variable {V ε R : Type} [EquivBEq K]

theorem strike_answerSet (room : Room) {request : SetRequest K} (hkey : request.key? = some key) (m : List K) :
    strike id (answerSet room request m).2 key = strike id m key := by
  cases request with
  | insert key =>
    obtain rfl := Option.some.inj hkey
    simp only [answerSet, reply, insert]
    split
    · rfl
    · exact strike_enter room BEq.rfl _
  | update key =>
    obtain rfl := Option.some.inj hkey
    simp only [answerSet, reply, update]
    split
    · exact strike_amend fun _ _ => BEq.rfl
    · exact strike_enter room BEq.rfl _
  | remove key =>
    obtain rfl := Option.some.inj hkey
    exact strike_strike
  | get key => rfl
  | contains key => rfl
  | locate key => rfl
  | clear keeping => cases hkey

theorem strike_memoize (beforehand : Bool) (room : Room) (key : K) (compute : K → Except Fault (Except ε V))
    (m : List (K × V)) :
    strike Prod.fst (memoize beforehand room key compute m).2 key = strike Prod.fst m key := by
  rw [memoize]
  split
  · rfl
  · split
    · rfl
    · split
      · rfl
      · rfl
      · exact strike_enter room BEq.rfl _

theorem strike_edit (room : Room) (key : K) (f : Option V → Edited V R) (m : List (K × V)) :
    strike Prod.fst (edit room key f m).2 key = strike Prod.fst m key := by
  simp only [edit]
  split
  · split
    · exact strike_amend fun _ hx => hx
    · exact strike_strike
  · split
    · rfl
    · exact strike_enter room BEq.rfl _
    · rfl

theorem strike_answerDict (beforehand : Bool) (room : Room) {request : DictRequest K V ε R}
    (hkey : request.key? = some key) (m : List (K × V)) :
    strike Prod.fst (answerDict beforehand room request m).2 key = strike Prod.fst m key := by
  cases request with
  | insert key value =>
    obtain rfl := Option.some.inj hkey
    simp only [answerDict, reply, insertValue]
    split
    · rfl
    · exact strike_enter room BEq.rfl _
  | update key value =>
    obtain rfl := Option.some.inj hkey
    simp only [answerDict, reply, updateValue]
    split
    · exact strike_amend fun _ hx => hx
    · exact strike_enter room BEq.rfl _
  | replace key value =>
    obtain rfl := Option.some.inj hkey
    exact strike_amend fun _ hx => hx
  | get key => rfl
  | contains key => rfl
  | memoize key compute =>
    obtain rfl := Option.some.inj hkey
    exact strike_memoize beforehand room _ _ m
  | tryMemoize key compute =>
    obtain rfl := Option.some.inj hkey
    exact strike_memoize beforehand room _ compute m
  | edit key f =>
    obtain rfl := Option.some.inj hkey
    exact strike_edit room _ f m
  | remove key =>
    obtain rfl := Option.some.inj hkey
    exact strike_strike
  | removeEntry key =>
    obtain rfl := Option.some.inj hkey
    exact strike_strike
  | clear keeping => cases hkey

end Requests

/-! ### What ledgers hash to -/

section Hashes

variable [EquivBEq K] {hash : α → UInt64}

theorem lookup_strike_self (hk : (k == key) = true) : lookup keyOf (strike keyOf m key) k = none := by
  rw [lookup_eq_none_iff]
  intro x hx
  rw [BEq.congr_right hk]
  simpa using (List.mem_filter.mp hx).2

theorem lookup_strike_of_ne (hk : (k == key) = false) : lookup keyOf (strike keyOf m key) k = lookup keyOf m k := by
  rw [lookup, strike, List.find?_filter, lookup]
  congr 1
  funext x
  by_cases hx : (keyOf x == k) = true
  · have hother : (keyOf x == key) = false := by rw [BEq.congr_left hx, hk]
    simp [hx, hother]
  · simp [hx]

/-- Ledgers that hold the same under every key, as far as `f` sees it, hold the same in some order. -/
theorem Distinct.map_perm {β : Type} {f : α → β} (h : Distinct keyOf m) (h' : Distinct keyOf m')
    (hsame : ∀ k, (lookup keyOf m k).map f = (lookup keyOf m' k).map f) : (m.map f).Perm (m'.map f) := by
  have hamong : ∀ {m m' : List α}, Distinct keyOf m → (∀ k, (lookup keyOf m k).map f = (lookup keyOf m' k).map f) →
      (m.map f).Subperm (m'.map f) := by
    intro m m' h hsame
    apply h.map_subperm
    intro x hx
    have hfound := hsame (keyOf x)
    rw [h.lookup_of_mem hx BEq.rfl, Option.map_some, eq_comm, Option.map_eq_some_iff] at hfound
    obtain ⟨y, hy, hf⟩ := hfound
    obtain ⟨hmem, hkey⟩ := mem_of_lookup hy
    exact ⟨y, hmem, hkey, hf⟩
  exact (hamong h hsame).antisymm (hamong h' fun k => (hsame k).symm)

/-- The entry under a key has its share in the hash. -/
theorem Distinct.xorFold_eq (h : Distinct keyOf m) (hash : α → UInt64) (key : K) :
    xorFold (m.map hash) = hashIfAny hash (lookup keyOf m key) ^^^ xorFold ((Ledger.strike keyOf m key).map hash) := by
  cases hlookup : lookup keyOf m key with
  | none => rw [strike_of_lookup_none hlookup, hashIfAny, Option.map_none, Option.getD_none,
      UInt64.zero_xor]
  | some x =>
    obtain ⟨hx, hkey⟩ := mem_of_lookup hlookup
    rw [xorFold_perm ((h.perm_cons_strike hx hkey).map hash), List.map_cons, xorFold_cons]
    rfl

theorem Distinct.xorFold_congr (h : Distinct keyOf m) (h' : Distinct keyOf m')
    (hsame : ∀ k, (lookup keyOf m k).map hash = (lookup keyOf m' k).map hash) :
    xorFold (m.map hash) = xorFold (m'.map hash) :=
  xorFold_perm (h.map_perm h' hsame)

/-- The hashes of ledgers that agree apart from one key differ by what is under that key. -/
theorem Distinct.xorFold_revised (h : Distinct keyOf m) (h' : Distinct keyOf m')
    (hapart : ∀ k, (k == key) = false → (lookup keyOf m k).map hash = (lookup keyOf m' k).map hash) :
    xorFold (m'.map hash) =
      xorFold (m.map hash) ^^^ hashIfAny hash (lookup keyOf m key) ^^^ hashIfAny hash (lookup keyOf m' key) := by
  have hrest : xorFold ((Ledger.strike keyOf m key).map hash) = xorFold ((Ledger.strike keyOf m' key).map hash) := by
    apply (h.strike key).xorFold_congr (h'.strike key)
    intro k
    by_cases hk : (k == key) = true
    · rw [lookup_strike_self hk, lookup_strike_self hk]
    · rw [Bool.not_eq_true] at hk
      rw [lookup_strike_of_ne hk, lookup_strike_of_ne hk, hapart k hk]
  rw [h.xorFold_eq hash key, h'.xorFold_eq hash key, hrest]
  generalize hashIfAny hash (lookup keyOf m key) = before
  generalize hashIfAny hash (lookup keyOf m' key) = after
  -- What was under the key before is folded in a second time.
  rw [UInt64.xor_comm before, UInt64.xor_assoc _ before before, UInt64.xor_self, UInt64.xor_zero, UInt64.xor_comm]

end Hashes

end Ledger

end RobinHood
