import RobinHood.Proofs.Memoization
import RobinHood.Proofs.ValuesInPlace

/-!
# What calls about one key leave

A call about one key looks for the key first, and what it leaves then depends only on where it found it, if it did.
An element is exchanged where it is, or taken out; or one is entered behind the search, if there is room; or nothing
happens. This holds of both kinds of containers, whatever the hashes are and whatever the caller's functions answer.
-/

namespace RobinHood

open RobinHood.Action

variable {σ K V ε R : Type}

/-! ### Sets -/

namespace AnySet

def withStorage (storage : FixedSet K) : AnySet K → AnySet K
  | .fixed _ => .fixed storage
  | .growing g => .growing { g with storage }

def removeAt (b : Nat) : AnySet K → AnySet K
  | .fixed s => .fixed ((FixedSet.removeAt b).runOn s).2
  | .growing g => .growing ((Growable.takeOut (FixedSet.removeAt b) (FixedSet.abandonAt b)).runOn g).2

/-- The set with a key that a search with the hash did not find, if there is room. -/
def enter (key : K) (hash : UInt64) : AnySet K → AnySet K
  | .fixed s => .fixed ((FixedSet.insertNew key hash).runOn s).2
  | .growing g => .growing ((Growable.insertAbsent key hash).runOn g).2

variable [BEq K]

def after (call : MemberCall K) : AnySet K → AnySet K
  | .fixed s => .fixed ((FixedSet.carryOut (.member call : FixedSet.Call K Empty)).runOn s).2
  | .growing g => .growing ((GrowSet.carryOut (.member call : GrowSet.Call K Empty)).runOn g).2

variable {s : AnySet K} {key x : K} {hash : UInt64} {b : Nat}

theorem after_insert_of_hit (hsearch : s.storage.search key = .ok ⟨some b, hash⟩) : s.after (.insert key) = s := by
  cases s with
  | fixed s =>
    have hrun : (FixedSet.insert key).runOn s = (.ok (some key), s) := FixedSet.runOn_insert_of_hit hsearch
    rw [after, FixedSet.carryOut, runOn_map, hrun]
    rfl
  | growing g =>
    rw [after, GrowSet.carryOut, runOn_map, GrowSet.runOn_insert_of_hit hsearch]
    rfl

theorem after_insert_of_miss (hsearch : s.storage.search key = .ok ⟨none, hash⟩) :
    s.after (.insert key) = s.enter key hash := by
  cases s with
  | fixed s =>
    have hrun : (FixedSet.insert key).runOn s = reply (fun _ => none) ((FixedSet.insertNew key hash).runOn s) :=
      FixedSet.runOn_insert_of_miss hsearch
    rw [after, FixedSet.carryOut, runOn_map, hrun]
    rfl
  | growing g =>
    rw [after, GrowSet.carryOut, runOn_map, GrowSet.runOn_insert_of_miss hsearch]
    rfl

theorem after_update_of_hit (hsearch : s.storage.search key = .ok ⟨some b, hash⟩)
    (hx : s.storage.slots.occupant b = some x) : s.after (.update key) =
      s.withStorage { s.storage with slots := s.storage.slots.assign b (some key) } := by
  cases s with
  | fixed s =>
    have hreplace := FixedSet.runOn_replaceAt (s := s) hx key
    rw [after, FixedSet.carryOut, runOn_map]
    simp only [FixedSet.update, runOn_get_bind, runOn_ok_bind, show s.search key = _ from hsearch,
      runOn_bind_ok hreplace]
    rfl
  | growing g =>
    have hreplace := Growable.runOn_onStorage (g := g) (FixedSet.runOn_replaceAt hx key)
    rw [after, GrowSet.carryOut, runOn_map]
    simp only [GrowSet.update, runOn_get_bind, runOn_ok_bind, show g.storage.search key = _ from hsearch,
      runOn_bind_ok hreplace]
    rfl

theorem after_update_of_miss (hsearch : s.storage.search key = .ok ⟨none, hash⟩) :
    s.after (.update key) = s.enter key hash := by
  cases s with
  | fixed s =>
    have henter := runOn_map (FixedSet.insertNew key hash) (fun _ => (none : Option K)) s
    rw [after, FixedSet.carryOut, runOn_map]
    simp only [FixedSet.update, runOn_get_bind, runOn_ok_bind, show s.search key = _ from hsearch, henter]
    rfl
  | growing g =>
    have henter := runOn_map (Growable.insertAbsent key hash) (fun _ => (none : Option K)) g
    rw [after, GrowSet.carryOut, runOn_map]
    simp only [GrowSet.update, runOn_get_bind, runOn_ok_bind, show g.storage.search key = _ from hsearch, henter]
    rfl

theorem after_remove_of_hit (hsearch : s.storage.search key = .ok ⟨some b, hash⟩) :
    s.after (.remove key) = s.removeAt b := by
  cases s with
  | fixed s =>
    have hremove := runOn_map (FixedSet.removeAt b : Action (FixedSet K) K) some s
    rw [after, FixedSet.carryOut, runOn_map]
    simp only [FixedSet.remove, runOn_get_bind, runOn_ok_bind, show s.search key = _ from hsearch, hremove]
    rfl
  | growing g =>
    have hremove := runOn_map (Growable.takeOut (FixedSet.removeAt b) (FixedSet.abandonAt b)) some g
    rw [after, GrowSet.carryOut, runOn_map]
    simp only [GrowSet.remove, runOn_get_bind, runOn_ok_bind, show g.storage.search key = _ from hsearch, hremove]
    rfl

theorem after_remove_of_miss (hsearch : s.storage.search key = .ok ⟨none, hash⟩) : s.after (.remove key) = s := by
  cases s with
  | fixed s =>
    rw [after, FixedSet.carryOut, runOn_map]
    simp only [FixedSet.remove, runOn_get_bind, runOn_ok_bind, show s.search key = _ from hsearch]
    rfl
  | growing g =>
    rw [after, GrowSet.carryOut, runOn_map]
    simp only [GrowSet.remove, runOn_get_bind, runOn_ok_bind, show g.storage.search key = _ from hsearch]
    rfl

end AnySet

/-! ### Calls about one entry -/

namespace EntryCall

def perform (ops : Keyed σ K V) (memo : Memo σ K V) : EntryCall K V ε R → Action σ Unit
  | .insert _ value => do let _ ← ops.insert value
  | .update _ value => do let _ ← ops.update value
  | .memoize _ compute => do let _ ← memo.memoize (m := Id) fun key => unlessAborted (compute key)
  | .tryMemoize _ compute => do let _ ← memo.tryMemoize (m := Id) fun key => unlessAborted (compute key)
  | .edit _ f => do let _ ← ops.edit (m := Id) fun held => edited (f held)
  | .remove _ => do let _ ← (do return (← ops.removeEntry).map Prod.snd : Action σ (Option V))
  | .removeEntry _ => do let _ ← ops.removeEntry

variable [BEq K] {hasher : Hasher K} {hash : UInt64} {b : Nat} {steps : Steps σ K V} {memo : Memo σ K V} {s : σ}
  {early late : Option Fault} {call : EntryCall K V ε R}

/-- After a hit, what the call leaves under its key is what comes of the bucket. -/
theorem perform_of_finds {key : K} {old : V} {after : Option V → σ} (hfinds : steps.Finds s b key old after)
    (hlazy : memo.Lazy hasher call.key early late s (some old)) (hself : after (some old) = s) :
    ((call.perform steps.keyed memo).runOn s).2 = after (call.leaves (some old)) := by
  cases call with
  | insert key value =>
    rw [perform, runOn_map, hfinds.runOn_insert]
    exact hself.symm
  | update key value =>
    rw [perform, runOn_map, hfinds.runOn_update]
    rfl
  | memoize key compute =>
    have hrun := hlazy.memoize (m := Id) fun key => unlessAborted (compute key)
    rw [perform, runOn_map, hrun]
    exact hself.symm
  | tryMemoize key compute =>
    have hrun := hlazy.tryMemoize (m := Id) fun key => unlessAborted (compute key)
    rw [perform, runOn_map, hrun]
    exact hself.symm
  | edit key f =>
    have hrun := hfinds.runOn_edit (m := Id) fun held => edited (f held)
    rw [perform, runOn_map, hrun]
    rfl
  | remove key =>
    rw [perform, runOn_map, runOn_map, hfinds.runOn_removeEntry]
    rfl
  | removeEntry key =>
    rw [perform, runOn_map, hfinds.runOn_removeEntry]
    rfl

/-- After a miss, what the call leaves under its key is entered. Where a memoization is refused early, nothing could
be entered. -/
theorem perform_of_miss (hsearch : steps.search s = .ok ⟨none, hash⟩)
    (hlazy : memo.Lazy hasher call.key early late s none)
    (hinsert : ∀ value, (memo.insert value).runOn s = reply (fun _ => none) ((steps.enter value hash).runOn s))
    (hearly : ∀ fault, early = some fault → ∀ value, ((steps.enter value hash).runOn s).2 = s) :
    ((call.perform steps.keyed memo).runOn s).2 =
      ((call.leaves none).map fun value => ((steps.enter value hash).runOn s).2).getD s := by
  cases call with
  | insert key value =>
    rw [perform, runOn_map, Steps.runOn_insert_of_miss hsearch]
    rfl
  | update key value =>
    rw [perform, runOn_map, Steps.runOn_update_of_miss hsearch]
    rfl
  | memoize key compute =>
    have hrun := hlazy.memoize (m := Id) fun key => unlessAborted (compute key)
    rw [perform, runOn_map, hrun, leaves]
    -- What is refused before the value is computed could not have been entered either.
    cases early with
    | some fault =>
      change s = _
      cases compute key with
      | error text => rfl
      | ok value => exact (hearly fault rfl value).symm
    | none =>
      change (settleCertain _ s (unlessAborted (compute key))).2 = _
      cases compute key with
      | error text => rfl
      | ok value => exact congrArg Prod.snd (hinsert value)
  | tryMemoize key compute =>
    have hrun := hlazy.tryMemoize (m := Id) fun key => unlessAborted (compute key)
    rw [perform, runOn_map, hrun, leaves]
    cases early with
    | some fault =>
      change s = _
      rcases compute key with text | e | value
      · rfl
      · rfl
      · exact (hearly fault rfl value).symm
    | none =>
      change (settle _ s (unlessAborted (compute key))).2 = _
      rcases compute key with text | e | value
      · rfl
      · rfl
      · exact congrArg Prod.snd (hinsert value)
  | edit key f =>
    have hrun := Steps.runOn_edit_of_miss hsearch (m := Id) fun held => edited (f held)
    rw [perform, runOn_map, hrun, leaves]
    rcases f none with ⟨left, text | answer⟩
    · rfl
    · cases left <;> rfl
  | remove key =>
    rw [perform, runOn_map, runOn_map, Steps.runOn_removeEntry_of_miss hsearch]
    rfl
  | removeEntry key =>
    rw [perform, runOn_map, Steps.runOn_removeEntry_of_miss hsearch]
    rfl

end EntryCall

/-! ### Dictionaries -/

inductive AnyDict.Call (K V ε R : Type) where
  | entry (call : EntryCall K V ε R)
  | replace (key : K) (value : V)
  | replaceAt (index : Nat) (value : V)
  | editValues (n : Nat) (edit : Nat → V → V)
  | editEntries (n : Nat) (edit : Nat → V → V)

namespace AnyDict

def Call.toFixed : Call K V ε R → FixedDict.Call K V ε R
  | .entry call => .entry call
  | .replace key value => .replace key value
  | .replaceAt index value => .replaceAt index value
  | .editValues n edit => .editValues n edit
  | .editEntries n edit => .editEntries n edit

def Call.toGrowing : Call K V ε R → GrowDict.Call K V ε R
  | .entry call => .entry call
  | .replace key value => .replace key value
  | .replaceAt index value => .replaceAt index value
  | .editValues n edit => .editValues n edit
  | .editEntries n edit => .editEntries n edit

def removeAt (b : Nat) : AnyDict K V → AnyDict K V
  | .fixed d => .fixed ((FixedDict.removeAt b).runOn d).2
  | .growing g => .growing ((GrowDict.removeAt b).runOn g).2

def enter (x : K × V) (hash : UInt64) : AnyDict K V → AnyDict K V
  | .fixed d => .fixed ((FixedDict.insertNew x.1 x.2 hash).runOn d).2
  | .growing g => .growing ((Growable.insertAbsent x hash).runOn g).2

end AnyDict

variable [BEq K]

theorem FixedDict.carryOut_entry (call : EntryCall K V ε R) :
    FixedDict.carryOut (.entry call) = call.perform (FixedDict.under call.key) (FixedDict.memo call.key) := by
  cases call <;> rfl

theorem GrowDict.carryOut_entry (call : EntryCall K V ε R) :
    GrowDict.carryOut (.entry call) = call.perform (GrowDict.under call.key) (GrowDict.memo call.key) := by
  cases call <;> rfl

namespace AnyDict

def after (call : Call K V ε R) : AnyDict K V → AnyDict K V
  | .fixed d => .fixed ((FixedDict.carryOut call.toFixed).runOn d).2
  | .growing g => .growing ((GrowDict.carryOut call.toGrowing).runOn g).2

variable {hasher : Hasher K} {d : AnyDict K V} {call : EntryCall K V ε R} {x : K × V} {hash : UInt64} {b : Nat}

theorem Reachable.after_entry_of_hit (hd : d.Reachable hasher)
    (hsearch : d.storage.keys.search call.key = .ok ⟨some b, hash⟩) (hx : d.storage.Holds b x) :
    d.after (.entry call) = match call.leaves (some x.2) with
      | some value => d.withStorage (d.storage.assignValue b (some value))
      | none => d.removeAt b := by
  have hget : d.storage.get? call.key = .ok (some x.2) := FixedDict.get?_of_search_some hsearch hx
  cases d with
  | fixed d =>
    obtain ⟨c, m, h⟩ := hd.keptBy (FixedDict.steady hasher)
    obtain ⟨t, hfinds⟩ := FixedDict.Steady.finds h hsearch hx
    obtain ⟨held, hlazy⟩ := FixedDict.memo_lazy hd call.key
    obtain rfl : held = some x.2 := Except.ok.inj (hlazy.holds.get?.symm.trans hget)
    have hrun := EntryCall.perform_of_finds hfinds hlazy (FixedDict.assignValue_self hx)
    rw [FixedDict.keyed_steps] at hrun
    rw [after, Call.toFixed, FixedDict.carryOut_entry, hrun]
    cases call.leaves (some x.2) with
    | some value => rfl
    | none => exact congrArg (fun step => AnyDict.fixed step.2) hfinds.removeAt.symm
  | growing g =>
    obtain ⟨m, h⟩ := hd.keptBy (FixedDict.steady hasher)
    obtain ⟨t, hfinds⟩ := GrowDict.finds h hsearch hx
    obtain ⟨held, hlazy⟩ := GrowDict.memo_lazy hd call.key
    obtain rfl : held = some x.2 := Except.ok.inj (hlazy.holds.get?.symm.trans hget)
    have hself : g.revised b t (some x.2) = g :=
      congrArg (fun storage => { g with storage }) (FixedDict.assignValue_self hx)
    have hrun := EntryCall.perform_of_finds hfinds hlazy hself
    rw [GrowDict.keyed_steps] at hrun
    rw [after, Call.toGrowing, GrowDict.carryOut_entry, hrun]
    cases call.leaves (some x.2) with
    | some value => rfl
    | none => exact congrArg (fun step => AnyDict.growing step.2) hfinds.removeAt.symm

theorem Reachable.after_entry_of_miss (hd : d.Reachable hasher)
    (hsearch : d.storage.keys.search call.key = .ok ⟨none, hash⟩) :
    d.after (.entry call) = match call.leaves none with
      | some value => d.enter (call.key, value) hash
      | none => d := by
  have hget : d.storage.get? call.key = .ok none := FixedDict.get?_of_search_none hsearch
  cases d with
  | fixed d =>
    obtain ⟨held, hlazy⟩ := FixedDict.memo_lazy hd call.key
    obtain rfl : held = none := Except.ok.inj (hlazy.holds.get?.symm.trans hget)
    have hearly : ∀ fault, d.refusal = some fault → ∀ value,
        (((FixedDict.steps call.key).enter value hash).runOn d).2 = d := by
      intro fault hrefusal value
      have hfull : d.isFull = true := by
        by_contra hfree
        rw [FixedDict.refusal, if_neg hfree] at hrefusal
        cases hrefusal
      exact congrArg Prod.snd (FixedDict.runOn_insertNew_full (beq_iff_eq.mp hfull))
    have hmiss : (FixedDict.steps call.key).search d = .ok ⟨none, hash⟩ := hsearch
    have hrun := EntryCall.perform_of_miss hmiss hlazy (FixedDict.runOn_insert_of_miss hsearch) hearly
    rw [FixedDict.keyed_steps] at hrun
    rw [after, Call.toFixed, FixedDict.carryOut_entry, hrun]
    cases call.leaves none <;> rfl
  | growing g =>
    obtain ⟨held, hlazy⟩ := GrowDict.memo_lazy hd call.key
    obtain rfl : held = none := Except.ok.inj (hlazy.holds.get?.symm.trans hget)
    have hmiss : (GrowDict.steps call.key).search g = .ok ⟨none, hash⟩ := hsearch
    have hinsert : ∀ value, ((GrowDict.memo call.key).insert value).runOn g =
        reply (fun _ => none) (((GrowDict.steps call.key).enter value hash).runOn g) := fun value => by
      have hinsert := Steps.runOn_insert_of_miss hmiss value
      rw [GrowDict.keyed_steps] at hinsert
      exact hinsert
    have hrun := EntryCall.perform_of_miss hmiss hlazy hinsert (by rintro _ ⟨⟩)
    rw [GrowDict.keyed_steps] at hrun
    rw [after, Call.toGrowing, GrowDict.carryOut_entry, hrun]
    cases call.leaves none <;> rfl

end AnyDict

end RobinHood
