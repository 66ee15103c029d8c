import RobinHood.GrowDict
import RobinHood.Proofs.FixedDict
import RobinHood.Proofs.Growable.Policy

/-!
# Growing dictionaries keep ledgers

A fixed dictionary is lawful storage, so a growing dictionary keeps the ledger of its entries through every
replacement, also when one is due while the value of the entry to be removed is with the caller.
-/

namespace RobinHood

open RobinHood.Action RobinHood.Ledger

variable {K V : Type} [BEq K] [EquivBEq K]

instance : LawfulBacking (FixedDict K V) (K × V) K where
  keyOf := Prod.fst
  Keeps := FixedDict.Keeps
  Stores := FixedDict.Stores
  Holds := FixedDict.Holds
  refusal := .dictionaryFull
  stores h := h.stores
  perm h hperm := by
    obtain ⟨s, hd, hcap, hkeeps⟩ := h
    exact ⟨s, hd, hcap, hkeeps.orderly, hkeeps.elements.trans hperm, hkeeps.distinct.perm hperm⟩
  distinct h := by
    obtain ⟨s, -, -, -, -, hdistinct⟩ := h
    exact hdistinct
  count h := by
    obtain ⟨s, rfl, -, hstep, hperm, -⟩ := h
    rw [← hperm.length_eq]
    exact hstep.count
  capacity h := by
    obtain ⟨s, rfl, hcap, -⟩ := h
    exact hcap
  length_le h := by
    obtain ⟨s, rfl, rfl, hstep, hperm, -⟩ := h
    rw [← hperm.length_eq, ← hstep.count]
    exact hstep.count_le
  elements h := by
    obtain ⟨s, rfl, -, hstep, hperm, -⟩ := h
    exact ⟨_, FixedDict.toList_intoIter hstep, hperm⟩
  renew {hasher _ _ _ _} seed h hlimit := by
    obtain ⟨s, rfl, -⟩ := h
    exact FixedDict.exists_keeps_nil hasher seed hlimit
  insertNew {_ _ _ _ x} h hnone := by
    have henters := h.insertNew hnone x.2
    obtain ⟨s, rfl, -⟩ := h
    exact henters

namespace GrowDict

variable {ε R : Type}

def answer : DictRequest K V ε R → Action (GrowDict K V) (DictReply K V ε R)
  | .insert key value => return .value (← insert key value)
  | .update key value => return .value (← update key value)
  | .replace key value => return .value (← replace key value)
  | .get key => Growable.onStorage (FixedDict.answer (.get key))
  | .contains key => Growable.onStorage (FixedDict.answer (.contains key))
  | .memoize key compute => return .value (some (← memoize key compute))
  | .tryMemoize key compute => return .memo (← tryMemoize key compute)
  | .edit key f => return .edited (← edit key f)
  | .remove key => return .value (← remove key)
  | .removeEntry key => return .entry (← removeEntry key)
  | .clear keeping => do
    if keeping then clear else Growable.reset
    return .done

abbrev Keeps (hasher : Hasher K) (g : GrowDict K V) (m : List (K × V)) : Prop :=
  Growable.Keeps hasher g m

variable {hasher : Hasher K} {g : GrowDict K V} {m : List (K × V)} {key : K}

theorem keeps_nil {minimum : Nat} {seeds : Seeds} (hvacant : vacant minimum hasher seeds = .ok g) :
    Keeps hasher g [] :=
  Growable.keeps_nil (fun _ _ _ => FixedDict.keeps_nil) hvacant

theorem exists_keeps_nil {minimum : Nat} (hasher : Hasher K) (seeds : Seeds) (hle : minimum ≤ Scale.limit) :
    ∃ g : GrowDict K V, vacant minimum hasher seeds = .ok g ∧ Keeps hasher g [] := by
  obtain ⟨c, hfitting, hfits⟩ := Scale.exists_fitting hle
  cases hdraw : (if c ≤ Table.denseLimit then (0, seeds) else seeds.draw) with
  | mk seed rest =>
    obtain ⟨d, hstorage, -⟩ := FixedDict.exists_keeps_nil (V := V) hasher seed hfits.onSequence.le_limit
    have hvacant : vacant minimum hasher seeds = .ok ⟨d, rest, []⟩ := by
      simp only [vacant, hfitting, hdraw, hstorage, bind, Except.bind]
      rfl
    exact ⟨_, hvacant, keeps_nil hvacant⟩

/-! What is done to a value in the storage. -/

section Storage

omit [BEq K] [EquivBEq K]

variable {b : Nat} {x : K × V} (hx : FixedDict.Holds g.storage b x)

include hx

theorem runOn_replaceIn (value : V) : (Growable.onStorage (FixedDict.replaceIn b value)).runOn g =
    (.ok x.2, { g with storage := g.storage.assignValue b (some value) }) :=
  Growable.runOn_onStorage (FixedDict.runOn_replaceIn hx value)

theorem runOn_takeValue : (Growable.onStorage (FixedDict.takeValue b)).runOn g =
    (.ok (some x.2), { g with storage := g.storage.assignValue b none }) :=
  Growable.runOn_onStorage (FixedDict.runOn_takeValue hx)

theorem runOn_putValue (value : V) :
    (Growable.onStorage (FixedDict.putValue b value)).runOn { g with storage := g.storage.assignValue b none } =
      (.ok ⟨⟩, { g with storage := g.storage.assignValue b (some value) }) :=
  Growable.runOn_onStorage (FixedDict.runOn_putValue hx value)

end Storage

theorem Keeps.insertAbsent (h : Keeps hasher g m) (hnone : lookup Prod.fst m key = none) (value : V) :
    Enters (Keeps hasher) Growable.Holds Growable.room
      (Growable.insertAbsent (key, value) (g.storage.keys.probeHash hasher key)) g m (key, value) := by
  have henters := Growable.Keeps.insertAbsent (x := (key, value)) h hnone
  obtain ⟨c, -, s, hs, -⟩ := h
  have hhash : g.placementHash (key, value) = g.storage.keys.probeHash hasher key := by
    rw [Growable.placementHash, Growable.table, hs]
    rfl
  rwa [hhash] at henters

theorem Keeps.insert (h : Keeps hasher g m) (hlawful : hasher.Lawful) (key : K) (value : V) :
    Alike (Keeps hasher) ((insert key value).runOn g) (insertValue Growable.room key value m) := by
  obtain ⟨c, -, hkeeps⟩ := id h
  obtain ⟨b, x, hsearch, hx, hlookup⟩ | ⟨hsearch, hlookup⟩ := hkeeps.search hlawful key
  · simp only [GrowDict.insert, insertValue, hlookup, runOn_get_bind, runOn_ok_bind, hsearch]
    exact ⟨rfl, h⟩
  · simp only [GrowDict.insert, insertValue, hlookup, runOn_get_bind, runOn_ok_bind, hsearch]
    exact (h.insertAbsent hlookup value).alike h none

theorem Keeps.update (h : Keeps hasher g m) (hlawful : hasher.Lawful) (key : K) (value : V) :
    Alike (Keeps hasher) ((update key value).runOn g) (updateValue Growable.room key value m) := by
  obtain ⟨c, hseq, hkeeps⟩ := id h
  obtain ⟨b, x, hsearch, hx, hlookup⟩ | ⟨hsearch, hlookup⟩ := hkeeps.search hlawful key
  · simp only [GrowDict.update, updateValue, hlookup, runOn_get_bind, runOn_ok_bind, hsearch,
      runOn_bind_ok (runOn_replaceIn hx value)]
    exact ⟨rfl, c, hseq, hkeeps.assignValue hlawful hx (mem_of_lookup hlookup).2 value⟩
  · simp only [GrowDict.update, updateValue, hlookup, runOn_get_bind, runOn_ok_bind, hsearch]
    exact (h.insertAbsent hlookup value).alike h none

theorem Keeps.replace (h : Keeps hasher g m) (hlawful : hasher.Lawful) (key : K) (value : V) :
    Alike (Keeps hasher) ((replace key value).runOn g) (.ok (Ledger.value m key), store key value m) := by
  obtain ⟨c, hseq, hkeeps⟩ := h
  exact Growable.alike_onStorage hseq (hkeeps.replace hlawful key value)

theorem Keeps.removeAt (h : Keeps hasher g m) {b : Nat} {x : K × V} (hx : g.storage.Holds b x)
    (hkey : (x.1 == key) = true) (content : Option V) :
    ∃ t, (removeAt b).runOn { g with storage := g.storage.assignValue b content } = (.ok (x.1, content), t) ∧
      Keeps hasher t (strike Prod.fst m key) :=
  Growable.Keeps.takeOut h rfl (fun _ hstorage => hstorage.removeAt hx hkey content)
    fun _ hstorage => hstorage.abandonAt hx hkey content

theorem Keeps.removeEntry (h : Keeps hasher g m) (hlawful : hasher.Lawful) (key : K) :
    Alike (Keeps hasher) ((removeEntry key).runOn g) (Ledger.removeEntry key m) := by
  obtain ⟨c, hseq, hkeeps⟩ := id h
  obtain ⟨b, x, hsearch, hx, hlookup⟩ | ⟨hsearch, hlookup⟩ := hkeeps.search hlawful key
  · obtain ⟨t, hrun, hkeeps'⟩ := h.removeAt hx (mem_of_lookup hlookup).2 (some x.2)
    rw [FixedDict.assignValue_self hx] at hrun
    simp only [GrowDict.removeEntry, Ledger.removeEntry, hlookup, runOn_get_bind, runOn_ok_bind, hsearch,
      runOn_bind_ok hrun]
    exact ⟨rfl, hkeeps'⟩
  · simp only [GrowDict.removeEntry, Ledger.removeEntry, hlookup, runOn_get_bind, runOn_ok_bind, hsearch]
    exact ⟨rfl, by rwa [strike_of_lookup_none hlookup]⟩

theorem Keeps.clear (h : Keeps hasher g m) : ∃ t, clear.runOn g = (.ok (), t) ∧ Keeps hasher t [] := by
  obtain ⟨c, hseq, hkeeps⟩ := h
  obtain ⟨t, hrun, hkeeps'⟩ := hkeeps.removeAll
  exact ⟨{ g with storage := t }, Growable.runOn_onStorage hrun, c, hseq, hkeeps'⟩

theorem Keeps.extend (h : Keeps hasher g m) (hlawful : hasher.Lawful) (entries : List (K × V)) (hint : Nat) :
    Alike (Keeps hasher) ((extend entries hint).runOn g)
      (andThen (Ledger.reserve Growable.room hint m) fun _ =>
        each (fun entry => updateValue Growable.room entry.1 entry.2) entries) :=
  (Growable.Keeps.reserve h hint).andThen fun _ _ _ hroom =>
    forM_alike (fun entry _ _ hkeeps => Keeps.update hkeeps hlawful entry.1 entry.2) entries hroom

/-! ### Values made by the caller -/

section TryMemoize

variable {m : Type → Type} [Monad m] [LawfulMonad m] {hash : UInt64}

omit [EquivBEq K]

theorem runOn_tryMemoize_of_hit {b : Nat} {x : K × V} (hsearch : g.storage.keys.search key = .ok ⟨some b, hash⟩)
    (hx : FixedDict.Holds g.storage b x) (compute : K → m (Except Fault (Except ε V))) :
    (tryMemoize key compute).runOn g = pure (.ok (.ok x.2), g) := by
  simp only [tryMemoize, ActionT.runOn_get_bind, ActionT.runOn_liftM_bind, hsearch, Slots.get_of_occupant hx.2]
  rfl

/-- Otherwise it is asked once, and the value that it makes is the one that is read back, in whatever storage. -/
theorem runOn_tryMemoize_of_miss (hsearch : g.storage.keys.search key = .ok ⟨none, hash⟩)
    (hholds : ∀ value bucket t, (Growable.insertAbsent (key, value) hash).runOn g = (.ok bucket, t) →
      FixedDict.Holds t.storage bucket (key, value)) (compute : K → m (Except Fault (Except ε V))) :
    (tryMemoize key compute).runOn g =
      settle (fun value => (Growable.insertAbsent (key, value) hash).runOn g) g <$> compute key := by
  simp only [tryMemoize, ActionT.runOn_get_bind, ActionT.runOn_liftM_bind, hsearch, runOn_call_bind, map_eq_pure_bind]
  congr 1
  funext computed
  rcases computed with fault | e | value
  · rfl
  · rfl
  · simp only [runOn_lift_bind, settle]
    cases hrun : (Growable.insertAbsent (key, value) hash).runOn g with
    | mk outcome t =>
      cases outcome with
      | error fault => rfl
      | ok bucket =>
        have hvalue := (hholds value bucket t hrun).2
        simp only [ActionT.runOn_get_bind, ActionT.runOn_liftM_bind, Slots.get_of_occupant hvalue]
        rfl

end TryMemoize

theorem Keeps.tryMemoize (h : Keeps hasher g m) (hlawful : hasher.Lawful) (key : K)
    (compute : K → Except Fault (Except ε V)) :
    Alike (Keeps hasher) ((tryMemoize (m := Id) key compute).runOn g)
      (Ledger.memoize false Growable.room key compute m) := by
  obtain ⟨c, hseq, hkeeps⟩ := id h
  obtain ⟨b, x, hsearch, hx, hlookup⟩ | ⟨hsearch, hlookup⟩ := hkeeps.search hlawful key
  · rw [runOn_tryMemoize_of_hit hsearch hx]
    simp only [Ledger.memoize, hlookup]
    exact ⟨rfl, h⟩
  · rw [runOn_tryMemoize_of_miss hsearch fun value _ _ hrun => (h.insertAbsent hlookup value).holds hrun]
    simp only [Ledger.memoize, hlookup, Bool.false_and, Bool.false_eq_true, if_false]
    change Alike _ (settle _ g (compute key)) _
    rcases compute key with fault | e | value
    · exact ⟨rfl, h⟩
    · exact ⟨rfl, h⟩
    · rw [settle, ← Action.runOn_map]
      exact (h.insertAbsent hlookup value).alike h _

theorem Keeps.memoize (h : Keeps hasher g m) (hlawful : hasher.Lawful) (key : K)
    (compute : K → Except Fault V) :
    Alike (Keeps hasher) ((memoize (m := Id) key compute).runOn g)
      (memoizeCertain false Growable.room key compute m) :=
  (Keeps.tryMemoize h hlawful key fun key => Except.ok <$> compute key).certain

theorem Keeps.edit (h : Keeps hasher g m) (hlawful : hasher.Lawful) (key : K) (f : Option V → Edited V R) :
    Alike (Keeps hasher) ((edit (m := Id) key f).runOn g) (Ledger.edit Growable.room key f m) := by
  obtain ⟨c, hseq, hkeeps⟩ := id h
  obtain ⟨b, x, hsearch, hx, hlookup⟩ | ⟨hsearch, hlookup⟩ := hkeeps.search hlawful key
  · have hkey := (mem_of_lookup hlookup).2
    simp only [GrowDict.edit, Ledger.edit, hlookup, runOn_get_bind, runOn_ok_bind, hsearch, lift_eq,
      runOn_bind_ok (runOn_takeValue hx), runOn_call_bind, call_bind]
    cases (f (some x.2)).left with
    | some value =>
      simp only [runOn_bind_ok (runOn_putValue hx value)]
      exact ⟨rfl, c, hseq, hkeeps.assignValue hlawful hx hkey value⟩
    | none =>
      obtain ⟨t, hrun, hkeeps'⟩ := Keeps.removeAt h hx hkey none
      simp only [runOn_bind_ok hrun]
      exact ⟨rfl, hkeeps'⟩
  · simp only [GrowDict.edit, Ledger.edit, hlookup, runOn_get_bind, runOn_ok_bind, hsearch, runOn_call_bind,
      call_bind]
    cases (f none).answer with
    | error fault => exact ⟨rfl, h⟩
    | ok answer =>
      cases (f none).left with
      | some value => exact (h.insertAbsent hlookup value).alike h answer
      | none => exact ⟨rfl, h⟩

/-! ### Requests -/

theorem Keeps.answer (h : Keeps hasher g m) (hlawful : hasher.Lawful) (request : DictRequest K V ε R) :
    Alike (Keeps hasher) ((answer request).runOn g) (answerDict false Growable.room request m) := by
  have hquery : ∀ query : DictRequest K V ε R,
      (∀ beforehand room, answerDict false Growable.room query m = answerDict beforehand room query m) →
      Alike (Keeps hasher) ((Growable.onStorage (FixedDict.answer query)).runOn g)
        (answerDict false Growable.room query m) := by
    intro query hroom
    obtain ⟨c, hseq, hkeeps⟩ := h
    rw [hroom true ⟨c, .dictionaryFull⟩]
    exact Growable.alike_onStorage hseq (hkeeps.answer hlawful query)
  cases request with
  | insert key value => exact (h.insert hlawful key value).map _
  | update key value => exact (h.update hlawful key value).map _
  | replace key value => exact (h.replace hlawful key value).map _
  | get key => exact hquery (.get key) fun _ _ => rfl
  | contains key => exact hquery (.contains key) fun _ _ => rfl
  | memoize key compute => exact (h.memoize hlawful key compute).map _
  | tryMemoize key compute => exact (h.tryMemoize hlawful key compute).map _
  | edit key f => exact (h.edit hlawful key f).map _
  | remove key => exact ((h.removeEntry hlawful key).map _).map _
  | removeEntry key => exact (h.removeEntry hlawful key).map _
  | clear keeping =>
    cases keeping with
    | true =>
      obtain ⟨t, hrun, hkeeps⟩ := h.clear
      simp only [GrowDict.answer, if_true, runOn_bind_ok hrun]
      exact ⟨rfl, hkeeps⟩
    | false =>
      obtain ⟨t, hrun, hkeeps⟩ := Growable.Keeps.reset h
      simp only [GrowDict.answer, Bool.false_eq_true, if_false, runOn_bind_ok hrun]
      exact ⟨rfl, hkeeps⟩

inductive Request (K V ε R : Type) where
  | plain (request : DictRequest K V ε R)
  | extend (entries : List (K × V)) (hint : Nat)
  | reserve (additional : Nat)
  | shrinkToFit

def respond : Request K V ε R → GrowDict K V → Except Fault (DictReply K V ε R) × GrowDict K V
  | .plain request, g => (GrowDict.answer request).runOn g
  | .extend entries hint, g => reply (fun _ => .done) ((GrowDict.extend entries hint).runOn g)
  | .reserve additional, g => reply (fun _ => .done) ((Growable.reserve additional).runOn g)
  | .shrinkToFit, g => reply (fun _ => .done) (Growable.shrinkToFit.runOn g)

def expected : Request K V ε R → List (K × V) → Except Fault (DictReply K V ε R) × List (K × V)
  | .plain request, m => answerDict false Growable.room request m
  | .extend entries hint, m =>
    reply (fun _ => .done) (andThen (Ledger.reserve Growable.room hint m) fun _ =>
      each (fun entry => updateValue Growable.room entry.1 entry.2) entries)
  | .reserve additional, m => reply (fun _ => .done) (Ledger.reserve Growable.room additional m)
  | .shrinkToFit, m => (.ok .done, m)

theorem simulates (hlawful : hasher.Lawful) :
    Simulates (Keeps hasher) (respond (V := V) (ε := ε) (R := R)) expected := by
  intro request g m h
  cases request with
  | plain request => exact h.answer hlawful request
  | extend entries hint => exact (h.extend hlawful entries hint).reply _
  | reserve additional => exact (Growable.Keeps.reserve h additional).reply _
  | shrinkToFit =>
    obtain ⟨t, hrun, hkeeps⟩ := Growable.Keeps.shrinkToFit h
    simp only [respond, hrun]
    exact ⟨rfl, hkeeps⟩

/-! ### What can be seen of a dictionary -/

structure Shows (g : GrowDict K V) (m : List (K × V)) : Prop where
  entries : ∃ listed, g.storage.iter.toList = .ok listed ∧ listed.Perm m
  distinct : Distinct Prod.fst m
  size : g.size = m.length

theorem Keeps.shows (h : Keeps hasher g m) : Shows g m := by
  have hsize := Growable.Keeps.size h
  obtain ⟨c, -, hkeeps⟩ := h
  have hshows := FixedDict.Keeps.shows hkeeps
  exact ⟨hshows.entries, hshows.distinct, hsize⟩

end GrowDict

end RobinHood
