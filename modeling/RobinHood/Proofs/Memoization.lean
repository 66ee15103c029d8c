import RobinHood.Proofs.Calls.Matching
import RobinHood.Proofs.Equality

/-!
# Memoization is lazy and atomic

A memoized value is asked for once, and only where none is held. It is either stored, where it is then found, or the
dictionary is what it was before. The two kinds differ in when they notice that there is no room: a fixed dictionary
before it asks, a growing one when it stores.
-/

namespace RobinHood

open RobinHood.Action

variable {σ K V β : Type}

def settleCertain {α : Type} (enter : V → Except Fault α × σ) (s : σ) : Except Fault V → Except Fault V × σ
  | .ok value => reply (fun _ => value) (enter value)
  | .error fault => (.error fault, s)

/-- What is held is the answer, and a refusal comes before the caller's function is `asked`. -/
def unlessHeld {m : Type → Type} [Monad m] (s : σ) (refusal : Option Fault) (asked : m (Except Fault β × σ)) :
    Option β → m (Except Fault β × σ)
  | some x => pure (.ok x, s)
  | none =>
    match refusal with
    | some fault => pure (.error fault, s)
    | none => asked

/-- What can be done under one key to memoize a value. -/
structure Memo (σ K V : Type) where
  storage : σ → FixedDict K V
  insert : V → Action σ (Option V)
  memoize : {m : Type → Type} → [Monad m] → (K → m (Except Fault V)) → ActionT σ m V
  tryMemoize : {m : Type → Type} → [Monad m] → {ε : Type} → (K → m (Except Fault (Except ε V))) →
    ActionT σ m (Except ε V)

def FixedDict.memo [BEq K] (key : K) : Memo (FixedDict K V) K V where
  storage d := d
  insert := FixedDict.insert key
  memoize := FixedDict.memoize key
  tryMemoize := FixedDict.tryMemoize key

def GrowDict.memo [BEq K] (key : K) : Memo (GrowDict K V) K V where
  storage := Growable.storage
  insert := GrowDict.insert key
  memoize := GrowDict.memoize key
  tryMemoize := GrowDict.tryMemoize key

/-- What is `held` under a key is what a lookup finds, and is in a bucket. If equal keys have equal hashes, no bucket
has anything else under the key. -/
structure FixedDict.HoldsUnder [BEq K] (hasher : Hasher K) (d : FixedDict K V) (key : K) (held : Option V) :
    Prop where
  get? : d.get? key = .ok held
  stored : ∀ value, held = some value → ∃ b x, d.Holds b x ∧ (x.1 == key) = true ∧ x.2 = value
  found : ∀ [EquivBEq K], hasher.Lawful → ∀ b x, d.Holds b x → (x.1 == key) = true → held = some x.2

/-- An insertion is refused, and changes nothing; or the value is put into a bucket, and is found there. -/
def Memo.Inserts [BEq K] (memo : Memo σ K V) (hasher : Hasher K) (key : K) (s : σ) (value : V) : Option Fault → Prop
  | some fault => (memo.insert value).runOn s = (.error fault, s)
  | none => ∃ t, (memo.insert value).runOn s = (.ok none, t) ∧ (∃ b, (memo.storage t).Holds b (key, value)) ∧
      ∀ [EquivBEq K], hasher.Lawful → (memo.storage t).get? key = .ok (some value)

/-- Under the key `held` is held. Memoizing calls the caller's function once, with the key, if nothing is held and
there is no `early` refusal, and otherwise not at all. The state is left as it is, or a value is inserted, of which only
a `late` refusal can keep it. -/
structure Memo.Lazy [BEq K] (memo : Memo σ K V) (hasher : Hasher K) (key : K) (early late : Option Fault) (s : σ)
    (held : Option V) : Prop where
  holds : (memo.storage s).HoldsUnder hasher key held
  tryMemoize : ∀ {m : Type → Type} [Monad m] [LawfulMonad m] {ε : Type} (compute : K → m (Except Fault (Except ε V))),
    (memo.tryMemoize compute).runOn s =
      unlessHeld s early (settle (fun value => (memo.insert value).runOn s) s <$> compute key) (held.map .ok)
  memoize : ∀ {m : Type → Type} [Monad m] [LawfulMonad m] (compute : K → m (Except Fault V)),
    (memo.memoize compute).runOn s =
      unlessHeld s early (settleCertain (fun value => (memo.insert value).runOn s) s <$> compute key) held
  insert : held = none → early = none → ∀ value, memo.Inserts hasher key s value late

/-- Memoizing by a function that cannot fail is memoizing by one that may. -/
theorem runOn_certain_of_settle {α : Type} {m : Type → Type} [Monad m] [LawfulMonad m] {s : σ}
    {action : ActionT σ m (Except Empty V)} {enter : V → Except Fault α × σ} {refusal : Option Fault}
    {held : Option V} {computed : m (Except Fault V)}
    (h : action.runOn s = unlessHeld s refusal (settle enter s <$> Except.map Except.ok <$> computed) (held.map .ok)) :
    (do match ← action with | .ok x => return x : ActionT σ m V).runOn s =
      unlessHeld s refusal (settleCertain enter s <$> computed) held := by
  refine (ActionT.runOn_certain action s).trans ?_
  rw [h]
  cases held with
  | some value => exact map_pure _ _
  | none =>
    cases refusal with
    | some fault => exact map_pure _ _
    | none =>
      simp only [Option.map_none, unlessHeld, Functor.map_map]
      congr 1
      funext computed
      cases computed with
      | error fault => rfl
      | ok value =>
        simp only [Except.map, settle, settleCertain]
        obtain ⟨outcome, t⟩ := enter value
        cases outcome <;> rfl

theorem settle_of_reply {α γ ε : Type} {enter : V → Except Fault α × σ} {insert : V → Except Fault γ × σ} {f : α → γ}
    (h : ∀ value, insert value = reply f (enter value)) (s : σ) :
    settle (ε := ε) insert s = settle enter s := by
  funext computed
  rcases computed with fault | e | value
  · rfl
  · rfl
  · rw [settle, settle, h]
    obtain ⟨outcome, t⟩ := enter value
    cases outcome <;> rfl

variable [BEq K] {hasher : Hasher K} {key : K}

/-! ### What is held in a reachable dictionary -/

namespace AnyDict.Reachable

variable {d : AnyDict K V} (hd : d.Reachable hasher)

include hd

theorem get?_of_holds [EquivBEq K] (hlawful : hasher.Lawful) {b : Nat} {x : K × V} (hx : d.storage.Holds b x)
    (hkey : (x.1 == key) = true) : d.storage.get? key = .ok (some x.2) := by
  obtain ⟨c, m, hkeeps⟩ := hd.keeps hlawful
  exact hkeeps.get?_of_holds hlawful hx hkey

theorem found_of_get? {held : Option V} (hget : d.storage.get? key = .ok held) [EquivBEq K] (hlawful : hasher.Lawful)
    (b : Nat) (x : K × V) (hx : d.storage.Holds b x) (hkey : (x.1 == key) = true) : held = some x.2 :=
  Except.ok.inj (hget.symm.trans (hd.get?_of_holds hlawful hx hkey))

theorem holdsUnder_of_hit {hash : UInt64} {b : Nat} {x : K × V}
    (hsearch : d.storage.keys.search key = .ok ⟨some b, hash⟩) (hx : d.storage.Holds b x)
    (hkey : (x.1 == key) = true) :
    d.storage.HoldsUnder hasher key (some x.2) where
  get? := FixedDict.get?_of_search_some hsearch hx
  stored := by
    rintro _ ⟨⟩
    exact ⟨b, x, hx, hkey, rfl⟩
  found := hd.found_of_get? (FixedDict.get?_of_search_some hsearch hx)

theorem holdsUnder_of_miss {hash : UInt64} (hsearch : d.storage.keys.search key = .ok ⟨none, hash⟩) :
    d.storage.HoldsUnder hasher key none where
  get? := FixedDict.get?_of_search_none hsearch
  stored := nofun
  found := hd.found_of_get? (FixedDict.get?_of_search_none hsearch)

end AnyDict.Reachable

/-! ### Fixed dictionaries -/

namespace FixedDict

/-- The early refusal of a fixed dictionary. -/
def refusal (d : FixedDict K V) : Option Fault :=
  if d.isFull then some .dictionaryFull else none

variable {d : FixedDict K V} {c : Nat} {m : List (K × V)} {hash : UInt64}

section Miss

variable (h : Steady hasher c d m) (hsearch : d.keys.search key = .ok ⟨none, hash⟩)

include hsearch

theorem runOn_insert_of_miss (value : V) :
    ((memo key).insert value).runOn d = reply (fun _ => none) ((insertNew key value hash).runOn d) :=
  Steps.runOn_insert_of_miss (show (steps key).search d = _ from hsearch) value

include h

theorem memo_tryMemoize_of_miss {n : Type → Type} [Monad n] [LawfulMonad n] {ε : Type}
    (compute : K → n (Except Fault (Except ε V))) :
    ((memo key).tryMemoize compute).runOn d =
      unlessHeld d d.refusal (settle (fun value => ((memo key).insert value).runOn d) d <$> compute key) none := by
  rw [settle_of_reply (runOn_insert_of_miss hsearch)]
  cases hfull : d.isFull with
  | true =>
    rw [refusal, hfull]
    exact runOn_tryMemoize_full hsearch hfull compute
  | false =>
    have hholds : ∀ value bucket t, (insertNew key value hash).runOn d = (.ok bucket, t) →
        Holds t bucket (key, value) := fun _ _ _ hrun => (Steady.insertNew h).holds hrun
    rw [refusal, hfull]
    exact runOn_tryMemoize_of_miss hsearch hfull hholds compute

/-- There is no late refusal where there is no early one. -/
theorem memo_inserts_of_miss (hd : AnyDict.Reachable hasher (.fixed d)) (hroom : d.refusal = none) (value : V) :
    (memo key).Inserts hasher key d value none := by
  have hfull : d.isFull = false := by
    by_contra hfull
    rw [refusal, if_pos (Bool.of_not_eq_false hfull)] at hroom
    cases hroom
  have henters : Ledger.Enters (Steady hasher c) Holds ⟨c, .dictionaryFull⟩ (insertNew key value hash) d m
      (key, value) := Steady.insertNew (x := (key, value)) h
  rw [Ledger.Enters, if_pos (h.isFull_eq_false_iff.mp hfull)] at henters
  obtain ⟨t, bucket, hrun, -, hholds⟩ := henters
  have hinserted : (FixedDict.insert key value).runOn d = (.ok none, t) := by
    refine (runOn_insert_of_miss hsearch value).trans ?_
    rw [hrun]
    rfl
  have hafter := hd.callFixed (.entry (.insert key value) : Call K V Empty Empty)
  rw [carryOut, runOn_map, hinserted] at hafter
  exact ⟨t, hinserted, ⟨bucket, hholds⟩, fun hlawful => hafter.get?_of_holds hlawful hholds BEq.rfl⟩

end Miss

theorem memo_tryMemoize_of_hit {n : Type → Type} [Monad n] [LawfulMonad n] {ε : Type} {b : Nat} {x : K × V}
    (hsearch : d.keys.search key = .ok ⟨some b, hash⟩) (hx : Holds d b x)
    (compute : K → n (Except Fault (Except ε V))) :
    ((memo key).tryMemoize compute).runOn d =
      unlessHeld d d.refusal (settle (fun value => ((memo key).insert value).runOn d) d <$> compute key)
        ((some x.2).map .ok) :=
  runOn_tryMemoize_of_hit hsearch hx compute

theorem runOn_memoize {n : Type → Type} [Monad n] [LawfulMonad n] {early : Option Fault} {held : Option V}
    (compute : K → n (Except Fault V))
    (htry : ((memo key).tryMemoize (ε := Empty) fun key => Except.map Except.ok <$> compute key).runOn d =
      unlessHeld d early (settle (fun value => ((memo key).insert value).runOn d) d <$> Except.map Except.ok <$>
        compute key) (held.map .ok)) :
    ((memo key).memoize compute).runOn d =
      unlessHeld d early (settleCertain (fun value => ((memo key).insert value).runOn d) d <$> compute key) held :=
  runOn_certain_of_settle htry

theorem memo_lazy (hd : AnyDict.Reachable hasher (.fixed d)) (key : K) :
    ∃ held, (memo key).Lazy hasher key d.refusal none d held := by
  obtain ⟨c, m, h⟩ := hd.keptBy (steady hasher)
  obtain ⟨b, x, hash, hsearch, hx, hkey⟩ | ⟨hsearch, -⟩ := (steady hasher).search h key
  · exact ⟨some x.2, {
      holds := hd.holdsUnder_of_hit hsearch hx hkey
      tryMemoize := memo_tryMemoize_of_hit hsearch hx
      memoize := fun compute => runOn_memoize compute (memo_tryMemoize_of_hit hsearch hx _)
      insert := nofun }⟩
  · exact ⟨none, {
      holds := hd.holdsUnder_of_miss hsearch
      tryMemoize := memo_tryMemoize_of_miss h hsearch
      memoize := fun compute => runOn_memoize compute (memo_tryMemoize_of_miss h hsearch _)
      insert := fun _ => memo_inserts_of_miss h hsearch hd }⟩

end FixedDict

/-! ### Growing dictionaries -/

namespace GrowDict

/-- The late refusal of a growing dictionary. -/
def refusal (g : GrowDict K V) : Option Fault :=
  if g.size < Scale.limit then none else some .capacityOverflow

variable {g : GrowDict K V} {m : List (K × V)}

section Miss

variable (h : (FixedDict.steady hasher).Held g m)
  (hsearch : g.storage.keys.search key = .ok ⟨none, if g.storage.table.isDense then 0 else g.storage.keys.hashOf key⟩)

include hsearch

theorem runOn_insert_of_miss (value : V) : ((memo key).insert value).runOn g =
    reply (fun _ => none) ((Growable.insertAbsent (key, value) (g.placementHash (key, value))).runOn g) :=
  Steps.runOn_insert_of_miss (show (steps key).search g = _ from hsearch) value

include h

theorem memo_tryMemoize_of_miss {n : Type → Type} [Monad n] [LawfulMonad n] {ε : Type}
    (compute : K → n (Except Fault (Except ε V))) :
    ((memo key).tryMemoize compute).runOn g =
      unlessHeld g none (settle (fun value => ((memo key).insert value).runOn g) g <$> compute key) none := by
  rw [settle_of_reply (runOn_insert_of_miss hsearch)]
  exact runOn_tryMemoize_of_miss hsearch
    (fun value _ _ hrun => h.holds_of_insertAbsent (x := (key, value)) (fun _ _ => trivial) hrun) compute

theorem memo_inserts_of_miss (hg : AnyDict.Reachable hasher (.growing g)) (value : V) :
    (memo key).Inserts hasher key g value g.refusal := by
  rw [refusal, h.size]
  obtain ⟨hlimit, t, bucket, hrun, -, hholds, -⟩ | ⟨hlimit, hrun⟩ :=
    h.insertAbsent (x := (key, value)) fun _ _ => trivial
  · have hinserted : (GrowDict.insert key value).runOn g = (.ok none, t) := by
      refine (runOn_insert_of_miss hsearch value).trans ?_
      rw [hrun]
      rfl
    have hafter := hg.callGrowing (.entry (.insert key value) : Call K V Empty Empty)
    rw [carryOut, runOn_map, hinserted] at hafter
    rw [if_pos hlimit]
    exact ⟨t, hinserted, ⟨bucket, hholds⟩, fun hlawful => hafter.get?_of_holds hlawful hholds BEq.rfl⟩
  · rw [if_neg (Nat.not_lt.mpr hlimit)]
    refine (runOn_insert_of_miss hsearch value).trans ?_
    rw [hrun]
    rfl

end Miss

theorem memo_tryMemoize_of_hit {n : Type → Type} [Monad n] [LawfulMonad n] {ε : Type} {hash : UInt64} {b : Nat}
    {x : K × V} (hsearch : g.storage.keys.search key = .ok ⟨some b, hash⟩) (hx : FixedDict.Holds g.storage b x)
    (compute : K → n (Except Fault (Except ε V))) :
    ((memo key).tryMemoize compute).runOn g =
      unlessHeld g none (settle (fun value => ((memo key).insert value).runOn g) g <$> compute key)
        ((some x.2).map .ok) :=
  runOn_tryMemoize_of_hit hsearch hx compute

theorem runOn_memoize {n : Type → Type} [Monad n] [LawfulMonad n] {early : Option Fault} {held : Option V}
    (compute : K → n (Except Fault V))
    (htry : ((memo key).tryMemoize (ε := Empty) fun key => Except.map Except.ok <$> compute key).runOn g =
      unlessHeld g early (settle (fun value => ((memo key).insert value).runOn g) g <$> Except.map Except.ok <$>
        compute key) (held.map .ok)) :
    ((memo key).memoize compute).runOn g =
      unlessHeld g early (settleCertain (fun value => ((memo key).insert value).runOn g) g <$> compute key) held :=
  runOn_certain_of_settle htry

theorem memo_lazy (hg : AnyDict.Reachable hasher (.growing g)) (key : K) :
    ∃ held, (memo key).Lazy hasher key none g.refusal g held := by
  obtain ⟨m, h⟩ := hg.keptBy (FixedDict.steady hasher)
  obtain ⟨b, x, hash, hsearch, hx, hkey⟩ | ⟨hsearch, -⟩ := (FixedDict.steady hasher).search h.keeps key
  · exact ⟨some x.2, {
      holds := hg.holdsUnder_of_hit hsearch hx hkey
      tryMemoize := memo_tryMemoize_of_hit hsearch hx
      memoize := fun compute => runOn_memoize compute (memo_tryMemoize_of_hit hsearch hx _)
      insert := nofun }⟩
  · exact ⟨none, {
      holds := hg.holdsUnder_of_miss hsearch
      tryMemoize := memo_tryMemoize_of_miss h hsearch
      memoize := fun compute => runOn_memoize compute (memo_tryMemoize_of_miss h hsearch _)
      insert := fun _ _ => memo_inserts_of_miss h hsearch hg }⟩

end GrowDict

/-- Whatever a dictionary has been through, memoizing under any key is lazy, in whatever monad the caller's function
runs: this function is called only if there is no value and no early refusal, and then once. -/
theorem memoization_lazy (hasher : Hasher K) :
    (∀ d : FixedDict K V, AnyDict.Reachable hasher (.fixed d) → ∀ key, ∃ held,
      (FixedDict.memo key).Lazy hasher key d.refusal none d held) ∧
    (∀ g : GrowDict K V, AnyDict.Reachable hasher (.growing g) → ∀ key, ∃ held,
      (GrowDict.memo key).Lazy hasher key none g.refusal g held) ∧
    Fault.dictionaryFull.message = "RigidDictionary capacity overflow" :=
  ⟨fun _ => FixedDict.memo_lazy, fun _ => GrowDict.memo_lazy, rfl⟩

/-- A function that writes down what it is called with. If it fails, the dense storage stays as it is, full; if it does
not, the entries go to probed storage, and the value is found there. -/
theorem memoization_lazy_across_layouts : ∃ g : GrowDict Nat Nat,
    AnyDict.Reachable (fun _ key => if key < 4 then 5 else key.toUInt64) (.growing g) ∧
    (GrowDict.memo 20).Lazy (fun _ key => if key < 4 then 5 else key.toUInt64) 20 none g.refusal g none ∧
    g.storage.table.isDense = true ∧ g.size = g.capacity ∧
    (((GrowDict.memo 20).tryMemoize (m := StateM (List Nat)) fun key => do
      modify (key :: ·)
      return .ok (.error "no")).runOn g).run [] = ((.ok (.error "no"), g), [20]) ∧
    ∃ t, (((GrowDict.memo 20).memoize (m := StateM (List Nat)) fun key => do
      modify (key :: ·)
      return .ok (key + 1000)).runOn g).run [] = ((.ok 1020, t), [20]) ∧
      t.storage.table.isDense = false ∧ t.storage.get? 20 = .ok (some 1020) := by
  have hnew : AnyDict.Reachable (V := Nat) (fun _ (key : Nat) => if key < 4 then 5 else key.toUInt64)
      (.growing ⟨_, .constant 0, []⟩) := .growing (rfl : GrowDict.vacant 0 _ _ = .ok _)
  have hfilled := hnew.callGrowing
    (.extend ((List.range 14).map fun key => (key, 10 * key)) 14 : GrowDict.Call Nat Nat Empty Empty)
  obtain ⟨g, hg, hget, hdense, hfull, houtcome, hprobed, hfound⟩ : ∃ g : GrowDict Nat Nat,
      AnyDict.Reachable (fun _ key => if key < 4 then 5 else key.toUInt64) (.growing g) ∧
      g.storage.get? 20 = .ok none ∧ g.storage.table.isDense = true ∧ g.size = g.capacity ∧
      ((GrowDict.insert 20 1020).runOn g).1 = .ok none ∧
      ((GrowDict.insert 20 1020).runOn g).2.storage.table.isDense = false ∧
      ((GrowDict.insert 20 1020).runOn g).2.storage.get? 20 = .ok (some 1020) :=
    ⟨_, hfilled, by decide +kernel, by decide +kernel, by decide +kernel, by decide +kernel, by decide +kernel,
      by decide +kernel⟩
  obtain ⟨held, hlazy⟩ := (memoization_lazy _).2.1 g hg 20
  obtain rfl : held = none := Except.ok.inj (hlazy.holds.get?.symm.trans hget)
  refine ⟨g, hg, hlazy, hdense, hfull, ?_, ((GrowDict.insert 20 1020).runOn g).2, ?_, hprobed, hfound⟩
  · rw [hlazy.tryMemoize]
    rfl
  · rw [hlazy.memoize]
    change (reply (fun _ => 1020) ((GrowDict.insert 20 1020).runOn g), [20]) = _
    rw [reply, houtcome]
    rfl

end RobinHood
