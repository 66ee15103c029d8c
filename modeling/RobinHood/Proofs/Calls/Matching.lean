import RobinHood.Proofs.Calls.Keyed
import RobinHood.Proofs.Calls.Sets
import RobinHood.Proofs.FixedDict.Keys
import RobinHood.Proofs.Growable.Mirror

/-!
# Calls to a dictionary and to the set of its keys

A call that leaves a value under its key is matched by an insertion into the set of keys, and one that leaves none by
a removal. Matching calls do the same to the keys, and are refused at the same time.
-/

namespace RobinHood

open RobinHood.Action

variable {σ τ K V ε R : Type}

/-! ### Calls about one key -/

/-- What calls to a set about one key consist of. -/
structure MemberSteps (τ K : Type) where
  search : τ → Except Fault Probe
  enter : UInt64 → Action τ Nat
  removeAt : Nat → Action τ K

namespace MemberSteps

def insert (steps : MemberSteps τ K) (key : K) : Action τ (Option K) := do
  let probe ← steps.search (← get)
  if probe.bucket.isSome then
    return some key
  else
    let _ ← steps.enter probe.hash
    return none

def remove (steps : MemberSteps τ K) : Action τ (Option K) := do
  match (← steps.search (← get)).bucket with
  | some bucket => return some (← steps.removeAt bucket)
  | none => return none

variable {steps : MemberSteps τ K} {t : τ} {b : Nat} {hash : UInt64} {key : K}

theorem runOn_insert_of_hit (hsearch : steps.search t = .ok ⟨some b, hash⟩) :
    (steps.insert key).runOn t = (.ok (some key), t) := by
  simp only [insert, runOn_get_bind, runOn_ok_bind, hsearch]
  rfl

theorem runOn_insert_of_miss (hsearch : steps.search t = .ok ⟨none, hash⟩) :
    (steps.insert key).runOn t = reply (fun _ => none) ((steps.enter hash).runOn t) := by
  simp only [insert, runOn_get_bind, runOn_ok_bind, hsearch, Option.isSome_none, Bool.false_eq_true, if_false]
  exact runOn_map _ _ _

theorem runOn_remove_of_hit {t' : τ} (hsearch : steps.search t = .ok ⟨some b, hash⟩)
    (hremove : (steps.removeAt b).runOn t = (.ok key, t')) : steps.remove.runOn t = (.ok (some key), t') := by
  simp only [remove, runOn_get_bind, runOn_ok_bind, hsearch, runOn_bind_ok hremove]
  rfl

theorem runOn_remove_of_miss (hsearch : steps.search t = .ok ⟨none, hash⟩) : steps.remove.runOn t = (.ok none, t) := by
  simp only [remove, runOn_get_bind, runOn_ok_bind, hsearch]
  rfl

end MemberSteps

/-- The steps of a dictionary and of a set find the same bucket or none, and do the same to the keys. -/
inductive InStride (f : σ → τ) (refusal refusal' : Fault) (steps : Steps σ K V) (moves : MemberSteps τ K) (s : σ) :
    Option V → Prop
  | hit {b : Nat} {hash : UInt64} {key : K} {old : V} {after : Option V → σ} (hfinds : steps.Finds s b key old after)
      (hsearch : moves.search (f s) = .ok ⟨some b, hash⟩) (hkeys : ∀ value, f (after (some value)) = f s)
      (hremove : (moves.removeAt b).runOn (f s) = (.ok key, f (after none))) :
      InStride f refusal refusal' steps moves s (some old)
  | miss {hash : UInt64} (hmiss : steps.search s = .ok ⟨none, hash⟩) (hsearch : moves.search (f s) = .ok ⟨none, hash⟩)
      (henter : ∀ value, Pace (Tied refusal refusal') f ((steps.enter value hash).runOn s)
        ((moves.enter hash).runOn (f s))) :
      InStride f refusal refusal' steps moves s none

/-- The outcomes are tied, or the caller's function gave up in the one call and the other one is done. -/
inductive Concur (refusal refusal' : Fault) : Except Fault Unit → Except Fault Unit → Prop
  | tied {left right : Except Fault Unit} (h : Tied refusal refusal' left right) : Concur refusal refusal' left right
  | aborted (text : String) : Concur refusal refusal' (.error (.aborted text)) (.ok ())

theorem Concur.of_answer {refusal refusal' : Fault} (answer : Except String R) :
    Concur refusal refusal' ((fun _ => ()) <$> unlessAborted answer) (.ok ()) := by
  cases answer with
  | ok _ => exact .tied (.done _ _)
  | error text => exact .aborted text

section InStride

variable {f : σ → τ} {refusal refusal' : Fault} {α α' : Type} {s : σ}

theorem Pace.concur {left : Except Fault Unit × σ} {right : Except Fault Unit × τ}
    (h : Pace (Tied refusal refusal') f left right) : Pace (Concur refusal refusal') f left right :=
  ⟨.tied h.outcomes, h.state⟩

theorem Pace.concur_drop {action : Action σ α} {image : Action τ α'}
    (h : Pace (Tied refusal refusal') f (action.runOn s) (image.runOn (f s))) :
    Pace (Concur refusal refusal') f ((do let _ ← action : Action σ Unit).runOn s)
      ((do let _ ← image : Action τ Unit).runOn (f s)) :=
  (h.map _ _).concur

namespace InStride

variable {steps : Steps σ K V} {moves : MemberSteps τ K} {held : Option V} {key : K}

theorem get? (h : InStride f refusal refusal' steps moves s held) : steps.keyed.get? s = .ok held := by
  cases h with
  | hit hfinds => exact hfinds.get?
  | miss hmiss => exact Steps.get?_of_miss hmiss

theorem insert (h : InStride f refusal refusal' steps moves s held) (value : V) :
    Pace (Tied refusal refusal') f ((steps.keyed.insert value).runOn s) ((moves.insert key).runOn (f s)) := by
  cases h with
  | hit hfinds hsearch =>
    rw [hfinds.runOn_insert, MemberSteps.runOn_insert_of_hit hsearch]
    exact .done _ _
  | miss hmiss hsearch henter =>
    rw [Steps.runOn_insert_of_miss hmiss, MemberSteps.runOn_insert_of_miss hsearch]
    exact (henter value).reply _ _

theorem update (h : InStride f refusal refusal' steps moves s held) (value : V) :
    Pace (Tied refusal refusal') f ((steps.keyed.update value).runOn s) ((moves.insert key).runOn (f s)) := by
  cases h with
  | hit hfinds hsearch hkeys =>
    rw [hfinds.runOn_update, MemberSteps.runOn_insert_of_hit hsearch]
    exact ⟨.done _ _, (hkeys value).symm⟩
  | miss hmiss hsearch henter =>
    rw [Steps.runOn_update_of_miss hmiss, MemberSteps.runOn_insert_of_miss hsearch]
    exact (henter value).reply _ _

theorem removeEntry (h : InStride f refusal refusal' steps moves s held) :
    Pace (Tied refusal refusal') f (steps.keyed.removeEntry.runOn s) (moves.remove.runOn (f s)) := by
  cases h with
  | hit hfinds hsearch _ hremove =>
    rw [hfinds.runOn_removeEntry, MemberSteps.runOn_remove_of_hit hsearch hremove]
    exact ⟨.done _ _, rfl⟩
  | miss hmiss hsearch =>
    rw [Steps.runOn_removeEntry_of_miss hmiss, MemberSteps.runOn_remove_of_miss hsearch]
    exact .done _ _

/-- An edit that leaves a value. Where there was none, its function must not give up, or nothing would be stored. -/
theorem edit_store (h : InStride f refusal refusal' steps moves s held) {g : Option V → Option V × Except String R}
    (hleft : (g held).1.isSome = true) (hanswer : held = none → ∃ answer, (g held).2 = .ok answer) :
    Pace (Concur refusal refusal') f
      ((do let _ ← steps.keyed.edit (m := Id) fun held => edited (g held) : Action σ Unit).runOn s)
      ((do let _ ← moves.insert key : Action τ Unit).runOn (f s)) := by
  obtain ⟨value, hvalue⟩ := Option.isSome_iff_exists.mp hleft
  cases h with
  | @hit b hash found old after hfinds hsearch hkeys =>
    have hedit : (steps.keyed.edit (m := Id) fun held => edited (g held)).runOn s =
        (unlessAborted (g (some old)).2, after (g (some old)).1) := hfinds.runOn_edit _
    rw [runOn_map, runOn_map, hedit, MemberSteps.runOn_insert_of_hit hsearch, hvalue]
    exact ⟨.of_answer _, (hkeys value).symm⟩
  | @miss hash hmiss hsearch henter =>
    obtain ⟨answer, hok⟩ := hanswer rfl
    have hedited : edited (g none) = ⟨some value, .ok answer⟩ := by
      rw [edited, hvalue, hok]
      rfl
    have hedit : (steps.keyed.edit (m := Id) fun held => edited (g held)).runOn s =
        reply (fun _ => answer) ((steps.enter value hash).runOn s) := by
      rw [Steps.runOn_edit_of_miss hmiss]
      simp only [hedited]
      rfl
    refine Pace.concur_drop ?_
    rw [hedit, MemberSteps.runOn_insert_of_miss hsearch]
    exact (henter value).reply _ _

/-- An edit that leaves no value removes what there was, if anything. -/
theorem edit_drop (h : InStride f refusal refusal' steps moves s held) {g : Option V → Option V × Except String R}
    (hleft : (g held).1 = none) :
    Pace (Concur refusal refusal') f
      ((do let _ ← steps.keyed.edit (m := Id) fun held => edited (g held) : Action σ Unit).runOn s)
      ((do let _ ← moves.remove : Action τ Unit).runOn (f s)) := by
  cases h with
  | @hit b hash found old after hfinds hsearch hkeys hremove =>
    have hedit : (steps.keyed.edit (m := Id) fun held => edited (g held)).runOn s =
        (unlessAborted (g (some old)).2, after (g (some old)).1) := hfinds.runOn_edit _
    rw [runOn_map, runOn_map, hedit, MemberSteps.runOn_remove_of_hit hsearch hremove, hleft]
    exact ⟨.of_answer _, rfl⟩
  | @miss hash hmiss hsearch henter =>
    have hedit : (steps.keyed.edit (m := Id) fun held => edited (g held)).runOn s = (unlessAborted (g none).2, s) := by
      rw [Steps.runOn_edit_of_miss hmiss]
      simp only [edited, hleft]
      cases (g none).2 <;> rfl
    rw [runOn_map, runOn_map, hedit, MemberSteps.runOn_remove_of_miss hsearch]
    exact ⟨.of_answer _, rfl⟩

end InStride

end InStride

/-- The call does to its entry, where `held` was held before, what the other call does to its key. A function of the
caller that is asked for a value gives one; a full dictionary of fixed capacity does not ask it. -/
inductive EntryCall.Matches (held : Option V) (full : Bool) : EntryCall K V ε R → MemberCall K → Prop
  | insert (key : K) (value : V) : Matches held full (.insert key value) (.insert key)
  | update (key : K) (value : V) : Matches held full (.update key value) (.insert key)
  | memoize (key : K) (compute : K → Except String V)
      (h : held = none → full = false → ∃ value, compute key = .ok value) :
      Matches held full (.memoize key compute) (.insert key)
  | tryMemoize (key : K) (compute : K → Except String (Except ε V))
      (h : held = none → full = false → ∃ value, compute key = .ok (.ok value)) :
      Matches held full (.tryMemoize key compute) (.insert key)
  | store (key : K) (f : Option V → Option V × Except String R) (hleft : (f held).1.isSome = true)
      (hanswer : held = none → ∃ answer, (f held).2 = .ok answer) : Matches held full (.edit key f) (.insert key)
  | drop (key : K) (f : Option V → Option V × Except String R) (hleft : (f held).1 = none) :
      Matches held full (.edit key f) (.remove key)
  | remove (key : K) : Matches held full (.remove key) (.remove key)
  | removeEntry (key : K) : Matches held full (.removeEntry key) (.remove key)

/-! ### Fixed dictionaries -/

variable [BEq K] {hasher : Hasher K} {c : Nat} {m : List (K × V)} {key : K} {held : Option V}

def FixedSet.steps (key : K) : MemberSteps (FixedSet K) K where
  search s := s.search key
  enter := insertNew key
  removeAt := removeAt

theorem FixedSet.insert_steps (key : K) : (steps key).insert key = insert key := rfl

theorem FixedSet.runOn_insert_of_hit {s : FixedSet K} {b : Nat} {hash : UInt64}
    (hsearch : s.search key = .ok ⟨some b, hash⟩) : (insert key).runOn s = (.ok (some key), s) := by
  rw [← insert_steps]
  exact MemberSteps.runOn_insert_of_hit hsearch

theorem FixedSet.runOn_insert_of_miss {s : FixedSet K} {hash : UInt64} (hsearch : s.search key = .ok ⟨none, hash⟩) :
    (insert key).runOn s = reply (fun _ => none) ((insertNew key hash).runOn s) := by
  rw [← insert_steps]
  exact MemberSteps.runOn_insert_of_miss hsearch

namespace FixedDict

variable {d : FixedDict K V}

omit [BEq K] in
theorem Steady.isFull_eq_false_iff (h : Steady hasher c d m) : d.isFull = false ↔ m.length < c := by
  have hcount : d.table.count = m.length := h.count
  have hcap : d.table.capacity = c := h.capacity
  have hle := h.length_le
  rw [isFull, FixedSet.isFull, Table.isFull, beq_eq_false_iff_ne]
  change d.table.count ≠ d.table.capacity ↔ _
  omega

omit [BEq K] in
theorem Steady.insertNew_paces (h : Steady hasher c d m) (x : K × V) (hash : UInt64) :
    Pace (Tied .dictionaryFull .setFull) FixedDict.keys ((FixedDict.insertNew x.1 x.2 hash).runOn d)
      ((FixedSet.insertNew x.1 hash).runOn d.keys) := by
  have henters : Ledger.Enters (Steady hasher c) Holds ⟨c, .dictionaryFull⟩ (FixedDict.insertNew x.1 x.2 hash) d m x :=
    h.insertNew
  rw [Ledger.Enters] at henters
  by_cases hroom : m.length < c
  · rw [if_pos hroom] at henters
    obtain ⟨t, bucket, hrun, -⟩ := henters
    rw [(h.mirrors_insertNew hroom x hash).ok hrun, hrun]
    exact .done _ _
  · rw [if_neg hroom] at henters
    have hfull : d.table.count = d.table.capacity := by
      rw [h.count, h.capacity]
      exact Nat.le_antisymm h.length_le (Nat.not_lt.mp hroom)
    rw [henters, FixedSet.runOn_insertNew_full hfull]
    exact .refused

theorem Steady.inStride (h : Steady hasher c d m) (key : K) :
    ∃ held, InStride FixedDict.keys .dictionaryFull .setFull (steps key) (FixedSet.steps key) d held := by
  obtain ⟨b, x, hash, hsearch, hx, -⟩ | ⟨hsearch, -⟩ := (steady hasher).search h key
  · obtain ⟨t, hfinds⟩ := h.finds hsearch hx
    exact ⟨_, .hit hfinds hsearch (fun _ => rfl) ((h.mirrors_removeAt hx).ok hfinds.removeAt)⟩
  · exact ⟨none, .miss hsearch hsearch fun value => h.insertNew_paces (key, value) _⟩

/-! A memoized value is the one that is held, or the one that was computed and entered. -/

section Memoize

variable {compute : K → Except String (Except ε V)} {hash : UInt64} {b : Nat} {x : K × V} {value : V}

theorem Steady.runOn_tryMemoize_of_value (h : Steady hasher c d m) (hsearch : d.keys.search key = .ok ⟨none, hash⟩)
    (hroom : m.length < c) (hvalue : compute key = .ok (.ok value)) :
    (tryMemoize (m := Id) key fun key => unlessAborted (compute key)).runOn d =
      reply (fun _ => .ok value) ((FixedDict.insertNew key value hash).runOn d) := by
  have hholds : ∀ value bucket t, (FixedDict.insertNew key value hash).runOn d = (.ok bucket, t) →
      Holds t bucket (key, value) := fun _ _ _ hrun => (Steady.insertNew h).holds hrun
  rw [FixedDict.runOn_tryMemoize_of_miss hsearch (h.isFull_eq_false_iff.mpr hroom) hholds]
  change settle _ d (unlessAborted (compute key)) = _
  rw [hvalue]
  rfl

/-- The keys are those of a set into which the key was inserted, if a value was there or has been computed. -/
theorem Steady.tryMemoize_paces (h : Steady hasher c d m) (hheld : d.get? key = .ok held)
    (hcompute : held = none → d.isFull = false → ∃ value, compute key = .ok (.ok value)) :
    Pace (Tied .dictionaryFull .setFull) FixedDict.keys
      ((tryMemoize (m := Id) key fun key => unlessAborted (compute key)).runOn d)
      ((FixedSet.insert key).runOn d.keys) := by
  rw [← FixedSet.insert_steps]
  obtain ⟨b, x, hash, hsearch, hx, -⟩ | ⟨hsearch, -⟩ := (steady hasher).search h key
  · rw [runOn_tryMemoize_of_hit hsearch hx, MemberSteps.runOn_insert_of_hit hsearch]
    exact .done _ _
  · cases hheld.symm.trans (get?_of_search_none hsearch)
    rw [MemberSteps.runOn_insert_of_miss hsearch]
    by_cases hroom : m.length < c
    · obtain ⟨value, hvalue⟩ := hcompute rfl (h.isFull_eq_false_iff.mpr hroom)
      rw [h.runOn_tryMemoize_of_value hsearch hroom hvalue]
      exact (h.insertNew_paces (key, value) _).reply _ _
    · have hfull : d.isFull = true := Bool.of_not_eq_false fun hfull => hroom (h.isFull_eq_false_iff.mp hfull)
      rw [runOn_tryMemoize_full hsearch hfull]
      change Pace _ _ _ (reply _ ((FixedSet.insertNew key _).runOn d.keys))
      rw [FixedSet.runOn_insertNew_full (beq_iff_eq.mp hfull)]
      exact .refused

theorem Steady.memoize_paces {compute : K → Except String V} (h : Steady hasher c d m) (hheld : d.get? key = .ok held)
    (hcompute : held = none → d.isFull = false → ∃ value, compute key = .ok value) :
    Pace (Tied .dictionaryFull .setFull) FixedDict.keys
      ((memoize (m := Id) key fun key => unlessAborted (compute key)).runOn d) ((FixedSet.insert key).runOn d.keys) := by
  have hmemo : Pace _ _ ((tryMemoize (m := Id) key fun key =>
      unlessAborted (Except.ok <$> compute key : Except String (Except Empty V))).runOn d) _ :=
    h.tryMemoize_paces hheld fun hnone hfull => (hcompute hnone hfull).imp fun value hvalue => by rw [hvalue]; rfl
  rw [memoize_unlessAborted]
  exact hmemo.certain

end Memoize

/-! Calls to a dictionary and to the set of its keys. -/

inductive Matches (d : FixedDict K V) : Call K V ε R → FixedSet.Call K ε → Prop
  | entry {held : Option V} {call : EntryCall K V ε R} {member : MemberCall K} (hheld : d.get? call.key = .ok held)
      (h : call.Matches held d.isFull member) : Matches d (.entry call) (.member member)
  | extend (entries : List (K × V)) : Matches d (.extend entries) (.extend (entries.map Prod.fst))
  | removeAll : Matches d .removeAll .removeAll

theorem Steady.update_paces (h : Steady hasher c d m) (key : K) (value : V) :
    Pace (Tied .dictionaryFull .setFull) FixedDict.keys ((FixedDict.update key value).runOn d)
      ((FixedSet.insert key).runOn d.keys) := by
  obtain ⟨held, hstride⟩ := h.inStride key
  exact hstride.update value

theorem extend_paces (h : (steady hasher).Has c d) (entries : List (K × V)) :
    Pace (Tied .dictionaryFull .setFull) FixedDict.keys ((FixedDict.extend entries).runOn d)
      ((FixedSet.extend (entries.map Prod.fst)).runOn d.keys) := by
  refine Pace.forM (P := (steady hasher).Has c) ?_ ?_ entries h
  · rintro entry u ⟨m, hu⟩
    exact Steady.update_paces hu entry.1 entry.2
  · exact fun entry u hu => (Upkeep.update_safe hu entry.1 entry.2).after

theorem entry_paces (h : (steady hasher).Has c d) {call : EntryCall K V ε R} {member : MemberCall K}
    (hheld : d.get? call.key = .ok held) (hmatch : call.Matches held d.isFull member) :
    Pace (Concur .dictionaryFull .setFull) FixedDict.keys ((carryOut (.entry call)).runOn d)
      ((FixedSet.carryOut (.member member : FixedSet.Call K ε)).runOn d.keys) := by
  obtain ⟨m, h⟩ := h
  obtain ⟨found, hstride⟩ := h.inStride call.key
  cases hstride.get?.symm.trans hheld
  cases hmatch with
  | insert key value => exact (hstride.insert value).concur_drop
  | update key value => exact (hstride.update value).concur_drop
  | memoize key compute hcompute => exact (h.memoize_paces hheld hcompute).concur_drop
  | tryMemoize key compute hcompute => exact (h.tryMemoize_paces hheld hcompute).concur_drop
  | store key f hleft hanswer => exact hstride.edit_store hleft hanswer
  | drop key f hleft => exact hstride.edit_drop hleft
  | remove key =>
    have hremove := hstride.removeEntry.reply_left fun removed => removed.map Prod.snd
    rw [← runOn_map] at hremove
    exact hremove.concur_drop
  | removeEntry key => exact hstride.removeEntry.concur_drop

theorem carryOut_paces (h : (steady hasher).Has c d) {call : Call K V ε R} {call' : FixedSet.Call K ε}
    (hmatch : d.Matches call call') :
    Pace (Concur .dictionaryFull .setFull) FixedDict.keys ((carryOut call).runOn d)
      ((FixedSet.carryOut call').runOn d.keys) := by
  cases hmatch with
  | entry hheld hmatch => exact entry_paces h hheld hmatch
  | extend entries => exact (extend_paces h entries).concur
  | removeAll => exact ⟨.tied (.done _ _), congrArg Prod.snd (mirrors_removeAll d)⟩

end FixedDict

/-! ### Growing dictionaries -/

/-- Fixed dictionaries are seen as the sets of their keys by whatever grows and shrinks. -/
theorem FixedDict.reflects (hasher : Hasher K) :
    (steady hasher : Upkeep V hasher).Reflects FixedDict.keys Prod.fst where
  table _ := rfl
  hashOf _ _ := rfl
  renew d capacity seed := vacant_keys capacity d.keys.hasher seed
  elements h := h.elements_keys
  insertNew h hroom x hash := h.mirrors_insertNew hroom x hash
  apart _ _ := trivial

def GrowSet.steps (key : K) : MemberSteps (GrowSet K) K where
  search g := g.storage.search key
  enter hash := Growable.insertAbsent key hash
  removeAt bucket := Growable.takeOut (FixedSet.removeAt bucket) (FixedSet.abandonAt bucket)

theorem GrowSet.insert_steps (key : K) : (steps key).insert key = insert key := rfl

theorem GrowSet.runOn_insert_of_hit {g : GrowSet K} {b : Nat} {hash : UInt64}
    (hsearch : g.storage.search key = .ok ⟨some b, hash⟩) : (insert key).runOn g = (.ok (some key), g) := by
  rw [← insert_steps]
  exact MemberSteps.runOn_insert_of_hit hsearch

theorem GrowSet.runOn_insert_of_miss {g : GrowSet K} {hash : UInt64}
    (hsearch : g.storage.search key = .ok ⟨none, hash⟩) :
    (insert key).runOn g = reply (fun _ => none) ((Growable.insertAbsent key hash).runOn g) := by
  rw [← insert_steps]
  exact MemberSteps.runOn_insert_of_miss hsearch

namespace GrowDict

variable {g : GrowDict K V}

abbrev keySet (g : GrowDict K V) : GrowSet K :=
  g.map FixedDict.keys

theorem insertAbsent_paces (h : (FixedDict.steady hasher).Held g m) (key : K) (value : V) :
    Pace (Tied .capacityOverflow .capacityOverflow) keySet
      ((Growable.insertAbsent (key, value) (g.placementHash (key, value))).runOn g)
      ((Growable.insertAbsent key (g.placementHash (key, value))).runOn g.keySet) := by
  apply ((FixedDict.reflects hasher).insertAbsent h (key, value) _).pace
  obtain ⟨-, t, bucket, hrun, -⟩ | ⟨-, hrun⟩ := h.insertAbsent (x := (key, value)) fun _ _ => trivial
  · exact .inl ⟨bucket, t, hrun⟩
  · exact .inr ⟨g, hrun⟩

theorem inStride (h : (FixedDict.steady hasher).Held g m) (key : K) :
    ∃ held, InStride keySet .capacityOverflow .capacityOverflow (steps key) (GrowSet.steps key) g held := by
  obtain ⟨b, x, hash, hsearch, hx, -⟩ | ⟨hsearch, -⟩ := (FixedDict.steady hasher).search h.keeps key
  · obtain ⟨t, hfinds⟩ := finds h hsearch hx
    obtain ⟨u, m', habandon, hsteady, -⟩ := FixedDict.Steady.abandonAt h.keeps hx (some x.2)
    rw [FixedDict.assignValue_self hx] at habandon
    have hremove := (FixedDict.reflects hasher).takeOut (FixedDict.Steady.mirrors_removeAt h.keeps hx)
      (FixedDict.Steady.mirrors_abandonAt h.keeps hx) ⟨_, u, m', habandon, hsteady⟩
    exact ⟨_, .hit hfinds hsearch (fun _ => rfl) (hremove.ok hfinds.removeAt)⟩
  · exact ⟨none, .miss hsearch hsearch fun value => insertAbsent_paces h key value⟩

section Memoize

variable {compute : K → Except String (Except ε V)} {hash : UInt64} {b : Nat} {x : K × V} {value : V}

theorem runOn_tryMemoize_of_value (h : (FixedDict.steady hasher).Held g m)
    (hsearch : g.storage.keys.search key = .ok ⟨none, if g.storage.table.isDense then 0 else g.storage.keys.hashOf key⟩)
    (hvalue : compute key = .ok (.ok value)) :
    (tryMemoize (m := Id) key fun key => unlessAborted (compute key)).runOn g =
      reply (fun _ => .ok value) ((Growable.insertAbsent (key, value) (g.placementHash (key, value))).runOn g) := by
  have hholds : ∀ value bucket t, (Growable.insertAbsent (key, value) (g.placementHash (key, value))).runOn g =
      (.ok bucket, t) → FixedDict.Holds t.storage bucket (key, value) := fun _ _ _ hrun =>
    h.holds_of_insertAbsent (fun _ _ => trivial) hrun
  rw [runOn_tryMemoize_of_miss hsearch hholds]
  change settle _ g (unlessAborted (compute key)) = _
  rw [hvalue]
  rfl

theorem tryMemoize_paces (h : (FixedDict.steady hasher).Held g m) (hheld : g.storage.get? key = .ok held)
    (hcompute : held = none → ∃ value, compute key = .ok (.ok value)) :
    Pace (Tied .capacityOverflow .capacityOverflow) keySet
      ((tryMemoize (m := Id) key fun key => unlessAborted (compute key)).runOn g)
      ((GrowSet.insert key).runOn g.keySet) := by
  rw [← GrowSet.insert_steps]
  obtain ⟨b, x, hash, hsearch, hx, -⟩ | ⟨hsearch, -⟩ := (FixedDict.steady hasher).search h.keeps key
  · rw [runOn_tryMemoize_of_hit hsearch hx, MemberSteps.runOn_insert_of_hit hsearch]
    exact .done _ _
  · cases hheld.symm.trans (FixedDict.get?_of_search_none hsearch)
    obtain ⟨value, hvalue⟩ := hcompute rfl
    rw [runOn_tryMemoize_of_value h hsearch hvalue, MemberSteps.runOn_insert_of_miss hsearch]
    exact (insertAbsent_paces h key value).reply _ _

theorem memoize_paces {compute : K → Except String V} (h : (FixedDict.steady hasher).Held g m)
    (hheld : g.storage.get? key = .ok held) (hcompute : held = none → ∃ value, compute key = .ok value) :
    Pace (Tied .capacityOverflow .capacityOverflow) keySet
      ((memoize (m := Id) key fun key => unlessAborted (compute key)).runOn g)
      ((GrowSet.insert key).runOn g.keySet) := by
  have hmemo : Pace _ _ ((tryMemoize (m := Id) key fun key =>
      unlessAborted (Except.ok <$> compute key : Except String (Except Empty V))).runOn g) _ :=
    tryMemoize_paces h hheld fun hnone => (hcompute hnone).imp fun value hvalue => by rw [hvalue]; rfl
  rw [memoize_unlessAborted]
  exact hmemo.certain

end Memoize

inductive Matches (g : GrowDict K V) : Call K V ε R → GrowSet.Call K ε → Prop
  | entry {held : Option V} {call : EntryCall K V ε R} {member : MemberCall K}
      (hheld : g.storage.get? call.key = .ok held) (h : call.Matches held false member) :
      Matches g (.entry call) (.member member)
  | extend (entries : List (K × V)) (hint : Nat) : Matches g (.extend entries hint) (.extend (entries.map Prod.fst) hint)
  | reserve (additional : Nat) : Matches g (.reserve additional) (.reserve additional)
  | shrinkToFit : Matches g .shrinkToFit .shrinkToFit
  | reset : Matches g .reset .reset
  | clear : Matches g .clear .clear

theorem update_paces (h : (FixedDict.steady hasher).Held g m) (key : K) (value : V) :
    Pace (Tied .capacityOverflow .capacityOverflow) keySet ((GrowDict.update key value).runOn g)
      ((GrowSet.insert key).runOn g.keySet) := by
  obtain ⟨held, hstride⟩ := inStride h key
  exact hstride.update value

theorem reserve_paces (h : (FixedDict.steady hasher).Held g m) (n : Nat) :
    Pace (Tied .capacityOverflow .capacityOverflow) keySet ((Growable.reserve n).runOn g)
      ((Growable.reserve n).runOn g.keySet) := by
  apply ((FixedDict.reflects hasher).reserve h n).pace
  obtain ⟨-, t, hrun, -⟩ | ⟨-, hrun⟩ := h.reserve n
  · exact .inl ⟨_, t, hrun⟩
  · exact .inr ⟨g, hrun⟩

theorem extend_paces (h : (FixedDict.steady hasher).Kept g) (entries : List (K × V)) (hint : Nat) :
    Pace (Tied .capacityOverflow .capacityOverflow) keySet ((extend entries hint).runOn g)
      ((GrowSet.extend (entries.map Prod.fst) hint).runOn g.keySet) := by
  obtain ⟨m, h⟩ := h
  unfold extend GrowSet.extend
  refine (reserve_paces h hint).bind fun _ _ t hrun => ?_
  have hkept : (FixedDict.steady hasher).Kept t := by
    have hsafe := (h.reserve_safe hint).after
    rw [hrun] at hsafe
    exact hsafe.1
  refine Pace.forM (P := (FixedDict.steady hasher).Kept) ?_ ?_ entries hkept
  · rintro entry u ⟨m, hu⟩
    exact update_paces hu entry.1 entry.2
  · exact fun entry u hu => (Upkeep.update_safe (ε := Empty) (R := Empty) hu entry.1 entry.2).after.1

theorem entry_paces (h : (FixedDict.steady hasher).Held g m) {call : EntryCall K V ε R} {member : MemberCall K}
    (hheld : g.storage.get? call.key = .ok held) (hmatch : call.Matches held false member) :
    Pace (Concur .capacityOverflow .capacityOverflow) keySet ((carryOut (.entry call)).runOn g)
      ((GrowSet.carryOut (.member member : GrowSet.Call K ε)).runOn g.keySet) := by
  obtain ⟨found, hstride⟩ := inStride h call.key
  cases hstride.get?.symm.trans hheld
  cases hmatch with
  | insert key value => exact (hstride.insert value).concur_drop
  | update key value => exact (hstride.update value).concur_drop
  | memoize key compute hcompute => exact (memoize_paces h hheld fun hnone => hcompute hnone rfl).concur_drop
  | tryMemoize key compute hcompute => exact (tryMemoize_paces h hheld fun hnone => hcompute hnone rfl).concur_drop
  | store key f hleft hanswer => exact hstride.edit_store hleft hanswer
  | drop key f hleft => exact hstride.edit_drop hleft
  | remove key =>
    have hremove := hstride.removeEntry.reply_left fun removed => removed.map Prod.snd
    rw [← runOn_map] at hremove
    exact hremove.concur_drop
  | removeEntry key => exact hstride.removeEntry.concur_drop

/-- Calls that match do the same to the keys, the capacity, the seeds and the journal. -/
theorem carryOut_paces (h : (FixedDict.steady hasher).Kept g) {call : Call K V ε R} {call' : GrowSet.Call K ε}
    (hmatch : g.Matches call call') :
    Pace (Concur .capacityOverflow .capacityOverflow) keySet ((carryOut call).runOn g)
      ((GrowSet.carryOut call').runOn g.keySet) := by
  obtain ⟨m, hheld⟩ := id h
  cases hmatch with
  | entry hget hmatch => exact entry_paces hheld hget hmatch
  | extend entries hint => exact (extend_paces h entries hint).concur
  | reserve additional => exact (reserve_paces hheld additional).concur
  | shrinkToFit =>
    obtain ⟨t, hrun, -⟩ := hheld.shrinkToFit
    exact (((FixedDict.reflects hasher).shrinkToFit hheld).pace (.inl ⟨_, t, hrun⟩)).concur
  | reset =>
    obtain ⟨t, hrun, -⟩ := hheld.reset
    exact (((FixedDict.reflects hasher).reset g).pace (.inl ⟨_, t, hrun⟩)).concur
  | clear =>
    exact ((Growable.mirrors_onStorage (FixedDict.mirrors_removeAll g.storage)).pace (.inl ⟨_, _, rfl⟩)).concur

end GrowDict

end RobinHood
