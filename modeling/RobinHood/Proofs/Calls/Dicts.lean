import RobinHood.Proofs.FixedDict.Upkeep
import RobinHood.Proofs.FixedDict.Values
import RobinHood.Proofs.Growable.Effect

/-!
# Calls to dictionaries

Every public call that may change a dictionary, and what it keeps, as for sets. A function of the caller that
gives up in the middle of a call leaves a dictionary like any other.
-/

namespace RobinHood

open RobinHood.Action RobinHood.Ledger

variable {K V ε R : Type}

/-- A call about one entry, with what the functions of the caller answer. -/
inductive EntryCall (K V ε R : Type) where
  | insert (key : K) (value : V)
  | update (key : K) (value : V)
  | memoize (key : K) (compute : K → Except String V)
  | tryMemoize (key : K) (compute : K → Except String (Except ε V))
  | edit (key : K) (f : Option V → Option V × Except String R)
  | remove (key : K)
  | removeEntry (key : K)

namespace EntryCall

def key : EntryCall K V ε R → K
  | insert key _ | update key _ | memoize key _ | tryMemoize key _ | edit key _ | remove key | removeEntry key => key

/-- The value that the call leaves under its key, where it was held before. -/
def leaves : EntryCall K V ε R → Option V → Option V
  | insert _ value, held => held.or (some value)
  | update _ value, _ => some value
  | memoize key compute, held => held.or (compute key).toOption
  | tryMemoize key compute, held => held.or ((compute key).toOption.bind Except.toOption)
  | edit _ f, some value => (f (some value)).1
  -- A function that gives up on an absent entry leaves it absent.
  | edit _ f, none => (f none).2.toOption.bind fun _ => (f none).1
  | remove _, _ | removeEntry _, _ => none

theorem leaves_memoize (key : K) (compute : K → Except String V) (held : Option V) :
    (tryMemoize key (fun key => Except.ok <$> compute key) : EntryCall K V ε R).leaves held =
      (memoize key compute : EntryCall K V ε R).leaves held := by
  rw [leaves, leaves]
  cases compute key <;> rfl

end EntryCall

def edited (left : Option V × Except String R) : Edited V R where
  left := left.1
  answer := unlessAborted left.2

namespace FixedDict

inductive Call (K V ε R : Type) where
  | entry (call : EntryCall K V ε R)
  | tryInsert (key : K) (value : V)
  | replace (key : K) (value : V)
  | replaceAt (index : Nat) (value : V)
  | editValues (n : Nat) (edit : Nat → V → V)
  | editEntries (n : Nat) (edit : Nat → V → V)
  | extend (entries : List (K × V))
  | removeAll

variable [BEq K]

/-- Makes the call and drops the answer. -/
def carryOut : Call K V ε R → Action (FixedDict K V) Unit
  | .entry (.insert key value) => do let _ ← insert key value
  | .entry (.update key value) => do let _ ← update key value
  | .entry (.memoize key compute) => do let _ ← memoize (m := Id) key fun key => unlessAborted (compute key)
  | .entry (.tryMemoize key compute) => do let _ ← tryMemoize (m := Id) key fun key => unlessAborted (compute key)
  | .entry (.edit key f) => do let _ ← edit (m := Id) key fun held => edited (f held)
  | .entry (.remove key) => do let _ ← remove key
  | .entry (.removeEntry key) => do let _ ← removeEntry key
  | .tryInsert key value => do let _ ← tryInsert key value
  | .replace key value => do let _ ← replace key value
  | .replaceAt index value => do let _ ← replaceAt index value
  | .editValues n edit => do let _ ← editValues n edit
  | .editEntries n edit => do let _ ← editEntries n edit
  | .extend entries => extend entries
  | .removeAll => removeAll

theorem memoize_unlessAborted (key : K) (compute : K → Except String V) :
    memoize (m := Id) key (fun key => unlessAborted (compute key)) = (do
      match ← tryMemoize (m := Id) (ε := Empty) key fun key => unlessAborted (Except.ok <$> compute key) with
      | .ok value => return value) := by
  rw [memoize]
  congr 2
  funext key
  cases compute key <;> rfl

namespace Upkeep

variable {hasher : Hasher K} {U : Upkeep V hasher} {c : Nat} {d : FixedDict K V} {m : List (K × V)} {key : K}
  {value : V} {b : Nat}

theorem has_of_length {n : Nat} : (∃ m', U.Keeps c d m' ∧ m'.length = n) → U.Has c d
  | ⟨m', hkeeps, _⟩ => ⟨m', hkeeps⟩

theorem insertNew_enters (h : U.Keeps c d m) (hapart : ∀ y ∈ m, U.Apart (key, value) y) :
    Enters (U.Keeps c) FixedDict.Holds ⟨c, .dictionaryFull⟩
      (FixedDict.insertNew key value (if d.table.isDense then 0 else d.keys.hashOf key)) d m (key, value) := by
  have henters := U.insertNew h hapart
  rw [U.holds_eq, U.refusal_eq] at henters
  exact henters

theorem insertNew_safe (h : U.Keeps c d m) (hapart : ∀ y ∈ m, U.Apart (key, value) y) :
    Safe (U.Has c) ((FixedDict.insertNew key value (if d.table.isDense then 0 else d.keys.hashOf key)).runOn d) :=
  (insertNew_enters h hapart).safe h rfl

theorem insert_safe (h : U.Has c d) (key : K) (value : V) : Safe (U.Has c) ((insert key value).runOn d) := by
  obtain ⟨m, h⟩ := h
  obtain ⟨b, x, hash, hsearch, -, -⟩ | ⟨hsearch, hapart⟩ := U.search h key
  · simp only [insert, runOn_get_bind, runOn_ok_bind, hsearch]
    exact .ok _ ⟨m, h⟩
  · simp only [insert, runOn_get_bind, runOn_ok_bind, hsearch]
    exact (insertNew_safe h (hapart value)).map _

theorem tryInsert_safe (h : U.Has c d) (key : K) (value : V) : Safe (U.Has c) ((tryInsert key value).runOn d) := by
  obtain ⟨m, h⟩ := h
  obtain ⟨b, x, hash, hsearch, -, -⟩ | ⟨hsearch, hapart⟩ := U.search h key
  · simp only [tryInsert, runOn_get_bind, runOn_ok_bind, hsearch]
    exact .ok _ ⟨m, h⟩
  · simp only [tryInsert, runOn_get_bind, runOn_ok_bind, hsearch, Option.isSome_none, Bool.false_eq_true, if_false]
    split
    · exact .ok _ ⟨m, h⟩
    · exact (insertNew_safe h (hapart value)).map _

theorem replaceIn_safe {x : K × V} (h : U.Keeps c d m) (hx : Holds d b x) (value : V) :
    Safe (fun t => ∃ m', U.Keeps c t m' ∧ m'.length = m.length) ((replaceIn b value).runOn d) := by
  rw [runOn_replaceIn hx]
  exact .ok _ (U.assignValue h hx value)

theorem update_safe (h : U.Has c d) (key : K) (value : V) : Safe (U.Has c) ((update key value).runOn d) := by
  obtain ⟨m, h⟩ := h
  obtain ⟨b, x, hash, hsearch, hx, -⟩ | ⟨hsearch, hapart⟩ := U.search h key
  · simp only [update, runOn_get_bind, runOn_ok_bind, hsearch]
    exact ((replaceIn_safe h hx value).mono fun _ => has_of_length).map _
  · simp only [update, runOn_get_bind, runOn_ok_bind, hsearch]
    exact (insertNew_safe h (hapart value)).map _

theorem replace_safe (h : U.Keeps c d m) (key : K) (value : V) :
    Safe (fun t => ∃ m', U.Keeps c t m' ∧ m'.length = m.length) ((replace key value).runOn d) := by
  obtain ⟨b, x, hash, hsearch, hx, -⟩ | ⟨hsearch, -⟩ := U.search h key
  · simp only [replace, runOn_get_bind, runOn_ok_bind, hsearch]
    exact (replaceIn_safe h hx value).map _
  · simp only [replace, runOn_get_bind, runOn_ok_bind, hsearch]
    exact .ok _ ⟨m, h, rfl⟩

theorem exists_holds (h : U.Keeps c d m) (hoccupied : d.table.isOccupied b = true) : ∃ x, Holds d b x := by
  obtain ⟨s, rfl, hstep⟩ := U.entries h
  obtain ⟨x, hx⟩ := Option.isSome_iff_exists.mp ((hstep.occupied b).symm.trans hoccupied)
  exact ⟨x, holds_ofEntries.mpr hx⟩

theorem exists_holds_of_value (h : U.Keeps c d m) (hvalue : d.values.occupant b = some value) :
    ∃ key, Holds d b (key, value) := by
  obtain ⟨s, rfl, hstep⟩ := U.entries h
  rw [ofEntries, Slots.occupant_map, Option.map_eq_some_iff] at hvalue
  obtain ⟨x, hx, rfl⟩ := hvalue
  exact ⟨x.1, holds_ofEntries.mpr hx⟩

theorem replaceAt_safe (h : U.Keeps c d m) (index : Nat) (value : V) :
    Safe (fun t => ∃ m', U.Keeps c t m' ∧ m'.length = m.length) ((replaceAt index value).runOn d) := by
  by_cases hoccupied : d.table.isOccupied index = true
  · obtain ⟨x, hx⟩ := exists_holds h hoccupied
    have hcheck : d.keys.checkIndex index = .ok () := if_pos hoccupied
    rw [replaceAt, runOn_get_bind, hcheck, runOn_ok_bind]
    exact replaceIn_safe h hx value
  · have hcheck : d.keys.checkIndex index = .error .indexOutOfBounds := if_neg hoccupied
    rw [replaceAt, runOn_get_bind, hcheck, runOn_error_bind]
    exact .stop ⟨m, h, rfl⟩ rfl

theorem removeEntry_safe (h : U.Has c d) (key : K) : Safe (U.Has c) ((removeEntry key).runOn d) := by
  obtain ⟨m, h⟩ := h
  obtain ⟨b, x, hash, hsearch, hx, -⟩ | ⟨hsearch, -⟩ := U.search h key
  · obtain ⟨t, m', hrun, hkeeps, -⟩ := U.removeAt h hx (some x.2)
    rw [assignValue_self hx] at hrun
    simp only [removeEntry, runOn_get_bind, runOn_ok_bind, hsearch, runOn_bind_ok hrun]
    exact .ok _ ⟨m', hkeeps⟩
  · simp only [removeEntry, runOn_get_bind, runOn_ok_bind, hsearch]
    exact .ok _ ⟨m, h⟩

theorem removeAll_safe (h : U.Keeps c d m) :
    Safe (fun t => ∃ m', U.Keeps c t m' ∧ m'.length = 0) (removeAll.runOn d) := by
  rw [removeAll, runOn_modify]
  split
  · have hcount : d.table.count = 0 := by rwa [← beq_iff_eq]
    exact .ok _ ⟨m, h, (U.count (U.stores h)).symm.trans hcount⟩
  · exact .ok _ ⟨[], U.clear h, rfl⟩

theorem extend_safe (h : U.Has c d) (entries : List (K × V)) : Safe (U.Has c) ((extend entries).runOn d) :=
  Safe.forM (fun entry _ hd => update_safe hd entry.1 entry.2) entries h

/-! ### Values made by the caller -/

theorem tryMemoize_safe (h : U.Has c d) (key : K) (compute : K → Except String (Except ε V)) :
    Safe (U.Has c) ((tryMemoize (m := Id) key fun key => unlessAborted (compute key)).runOn d) := by
  obtain ⟨m, h⟩ := h
  obtain ⟨b, x, hash, hsearch, hx, -⟩ | ⟨hsearch, hapart⟩ := U.search h key
  · rw [runOn_tryMemoize_of_hit hsearch hx]
    exact .ok _ ⟨m, h⟩
  · cases hfull : d.isFull with
    | true =>
      rw [runOn_tryMemoize_full hsearch hfull]
      exact .stop ⟨m, h⟩ rfl
    | false =>
      rw [runOn_tryMemoize_of_miss hsearch hfull fun value _ _ hrun => (insertNew_enters h (hapart value)).holds hrun]
      change Safe _ (settle _ d (unlessAborted (compute key)))
      rcases compute key with text | e | value
      · exact .stop ⟨m, h⟩ rfl
      · exact .ok _ ⟨m, h⟩
      · exact (insertNew_safe h (hapart value)).reply _

theorem memoize_safe (h : U.Has c d) (key : K) (compute : K → Except String V) :
    Safe (U.Has c) ((memoize (m := Id) key fun key => unlessAborted (compute key)).runOn d) := by
  rw [memoize_unlessAborted]
  exact (tryMemoize_safe h key _).certain

theorem edit_safe (h : U.Has c d) (key : K) (f : Option V → Option V × Except String R) :
    Safe (U.Has c) ((edit (m := Id) key fun held => edited (f held)).runOn d) := by
  obtain ⟨m, h⟩ := h
  obtain ⟨b, x, hash, hsearch, hx, -⟩ | ⟨hsearch, hapart⟩ := U.search h key
  · simp only [edit, runOn_get_bind, runOn_ok_bind, hsearch, lift_eq, runOn_bind_ok (runOn_takeValue hx),
      runOn_call_bind, call_bind, edited]
    cases (f (some x.2)).1 with
    | some value =>
      obtain ⟨m', hkeeps, -⟩ := U.assignValue h hx value
      simp only [runOn_bind_ok (runOn_putValue hx value)]
      exact .answer _ ⟨m', hkeeps⟩
    | none =>
      obtain ⟨t, m', hrun, hkeeps, -⟩ := U.removeAt h hx none
      simp only [runOn_bind_ok hrun]
      exact .answer _ ⟨m', hkeeps⟩
  · simp only [edit, runOn_get_bind, runOn_ok_bind, hsearch, runOn_call_bind, call_bind, edited]
    refine .ask ⟨m, h⟩ fun answer => ?_
    cases (f none).1 with
    | none => exact .ok answer ⟨m, h⟩
    | some value => exact (insertNew_safe h (hapart value)).map _

/-! ### Changing values in place -/

/-- Changing the values that the cursor has yet to pass keeps `n` entries. -/
def Revalues (U : Upkeep V hasher) (c n : Nat) (d : FixedDict K V) (cursor : ValueCursor V) : Prop :=
  ∃ m, U.Keeps c { d with values := cursor.slots } m ∧ m.length = n

theorem Revalues.next? {n : Nat} {cursor : ValueCursor V} (h : Revalues U c n d cursor) :
    cursor.next? = .ok none ∨ ∃ value behind, cursor.next? = .ok (some (value, behind)) ∧ Revalues U c n d behind := by
  obtain ⟨m, hkeeps, hlength⟩ := h
  rw [ValueCursor.next?]
  split
  · exact .inl rfl
  · cases hfirst : cursor.slots.firstHeldFrom cursor.position with
    | none => exact .inl rfl
    | some b =>
      have hheld := cursor.slots.firstHeldFrom_first cursor.position
      rw [hfirst] at hheld
      obtain ⟨value, hvalue⟩ := Option.isSome_iff_exists.mp hheld.2.1
      obtain ⟨key, hx⟩ := exists_holds_of_value hkeeps hvalue
      obtain ⟨m', hkeeps', hlength'⟩ := U.assignValue hkeeps hx (cursor.edit cursor.visited value)
      right
      dsimp only
      rw [Slots.get_of_occupant hvalue]
      exact ⟨_, _, rfl, m', hkeeps', hlength'.trans hlength⟩

theorem editValues_safe (h : U.Keeps c d m) (n : Nat) (edit : Nat → V → V) :
    Safe (fun t => ∃ m', U.Keeps c t m' ∧ m'.length = m.length) ((editValues n edit).runOn d) := by
  have hstart : Revalues U c m.length d (d.valuesMut edit) := ⟨m, h, rfl⟩
  obtain ⟨values, cursor, htake, hafter⟩ := exists_takeUpTo (fun _ hcursor => hcursor.next?) n hstart
  rw [editValues, runOn_get_bind, htake, runOn_ok_bind]
  exact .ok _ hafter

theorem editEntries_safe (h : U.Keeps c d m) (n : Nat) (edit : Nat → V → V) :
    Safe (fun t => ∃ m', U.Keeps c t m' ∧ m'.length = m.length) ((editEntries n edit).runOn d) := by
  have hkeys : ∃ keys, Yields Cursor.next? d.keys.iter keys := by
    obtain ⟨s, rfl, hstep⟩ := U.entries h
    exact ⟨_, FixedSet.yields_iter (hstep.map Prod.fst)⟩
  -- The keys are not changed, so they are walked as if nothing else happened.
  have hstep : ∀ cursor : EntryCursor K V,
      ((∃ keys, Yields Cursor.next? cursor.keys keys) ∧ Revalues U c m.length d cursor.values) →
      cursor.next? = .ok none ∨ ∃ entry behind, cursor.next? = .ok (some (entry, behind)) ∧
        (∃ keys, Yields Cursor.next? behind.keys keys) ∧ Revalues U c m.length d behind.values := by
    rintro cursor ⟨⟨keys, hyields⟩, hvalues⟩
    rw [EntryCursor.next?]
    cases hyields with
    | nil hnone => exact .inl (by rw [hnone]; rfl)
    | cons hsome htail =>
      obtain hnone | ⟨value, behind, hvalue, hafter⟩ := hvalues.next?
      · exact .inl (by rw [hsome, hnone]; rfl)
      · exact .inr ⟨_, _, by rw [hsome, hvalue]; rfl, ⟨_, htail⟩, hafter⟩
  obtain ⟨entries, cursor, htake, -, hafter⟩ := exists_takeUpTo hstep n (s := d.iterMut edit) ⟨hkeys, m, h, rfl⟩
  rw [editEntries, runOn_get_bind, htake, runOn_ok_bind]
  exact .ok _ hafter

end Upkeep

variable {hasher : Hasher K} {U : Upkeep V hasher} {c : Nat} {d : FixedDict K V}

theorem carryOut_safe (h : U.Has c d) (call : Call K V ε R) : Safe (U.Has c) ((carryOut call).runOn d) := by
  obtain ⟨m, hkeeps⟩ := id h
  cases call with
  | entry call =>
    cases call with
    | insert key value => exact (Upkeep.insert_safe h key value).map _
    | update key value => exact (Upkeep.update_safe h key value).map _
    | memoize key compute => exact (Upkeep.memoize_safe h key compute).map _
    | tryMemoize key compute => exact (Upkeep.tryMemoize_safe h key compute).map _
    | edit key f => exact (Upkeep.edit_safe h key f).map _
    | remove key => exact ((Upkeep.removeEntry_safe h key).map _).map _
    | removeEntry key => exact (Upkeep.removeEntry_safe h key).map _
  | tryInsert key value => exact (Upkeep.tryInsert_safe h key value).map _
  | replace key value =>
    exact ((Upkeep.replace_safe hkeeps key value).mono fun _ => Upkeep.has_of_length).map _
  | replaceAt index value =>
    exact ((Upkeep.replaceAt_safe hkeeps index value).mono fun _ => Upkeep.has_of_length).map _
  | editValues n edit =>
    exact ((Upkeep.editValues_safe hkeeps n edit).mono fun _ => Upkeep.has_of_length).map _
  | editEntries n edit =>
    exact ((Upkeep.editEntries_safe hkeeps n edit).mono fun _ => Upkeep.has_of_length).map _
  | extend entries => exact Upkeep.extend_safe h entries
  | removeAll => exact (Upkeep.removeAll_safe hkeeps).mono fun _ => Upkeep.has_of_length

/-! ### Making dictionaries -/

variable {seed : UInt64}

theorem vacant_made (U : Upkeep V hasher) : Made (U.Keeps c · []) (vacant c hasher seed) where
  good d hd := U.vacant hd
  contract fault h := by
    by_cases hle : c ≤ Scale.limit
    · obtain ⟨d, hvacant, -⟩ := exists_keeps_nil (V := V) hasher seed hle
      cases hvacant.symm.trans h
    · rw [vacant_eq_map, Seating.vacant_of_limit_lt seed (Nat.not_le.mp hle)] at h
      cases h
      rfl

theorem ofList_made (U : Upkeep V hasher) (entries : List (K × V)) :
    Made (U.Has c) (ofList c hasher seed entries) := by
  refine (vacant_made U).bind fun d hd => ?_
  have hextend := Upkeep.extend_safe ⟨[], hd⟩ entries
  split
  · next hrun =>
    rw [hrun] at hextend
    exact .ok hextend.after
  · next fault _ hrun =>
    rw [hrun] at hextend
    exact .stop (hextend.contract fault rfl)

end FixedDict

namespace GrowDict

open Growable

inductive Call (K V ε R : Type) where
  | entry (call : EntryCall K V ε R)
  | replace (key : K) (value : V)
  | replaceAt (index : Nat) (value : V)
  | editValues (n : Nat) (edit : Nat → V → V)
  | editEntries (n : Nat) (edit : Nat → V → V)
  | extend (entries : List (K × V)) (hint : Nat)
  | reserve (additional : Nat)
  | shrinkToFit
  | reset
  | clear

variable [BEq K]

def carryOut : Call K V ε R → Action (GrowDict K V) Unit
  | .entry (.insert key value) => do let _ ← insert key value
  | .entry (.update key value) => do let _ ← update key value
  | .entry (.memoize key compute) => do let _ ← memoize (m := Id) key fun key => unlessAborted (compute key)
  | .entry (.tryMemoize key compute) => do let _ ← tryMemoize (m := Id) key fun key => unlessAborted (compute key)
  | .entry (.edit key f) => do let _ ← edit (m := Id) key fun held => edited (f held)
  | .entry (.remove key) => do let _ ← remove key
  | .entry (.removeEntry key) => do let _ ← removeEntry key
  | .replace key value => do let _ ← replace key value
  | .replaceAt index value => do let _ ← replaceAt index value
  | .editValues n edit => do let _ ← editValues n edit
  | .editEntries n edit => do let _ ← editEntries n edit
  | .extend entries hint => extend entries hint
  | .reserve additional => Growable.reserve additional
  | .shrinkToFit => Growable.shrinkToFit
  | .reset => Growable.reset
  | .clear => clear

theorem memoize_unlessAborted (key : K) (compute : K → Except String V) :
    memoize (m := Id) key (fun key => unlessAborted (compute key)) = (do
      match ← tryMemoize (m := Id) (ε := Empty) key fun key => unlessAborted (Except.ok <$> compute key) with
      | .ok value => return value) := by
  rw [memoize]
  congr 2
  funext key
  cases compute key <;> rfl

def EntryObeys (call : EntryCall K V ε R) (g t : GrowDict K V) : Prop :=
  ∃ held, g.storage.get? call.key = .ok held ∧ Effect g t held.isSome (call.leaves held).isSome

/-- The policy for a call, in terms of the dictionaries before and after it. -/
def Obeys : Call K V ε R → GrowDict K V → GrowDict K V → Prop
  | .entry call => EntryObeys call
  | .replace _ _ | .replaceAt _ _ | .editValues _ _ | .editEntries _ _ => fun g t => t.size = g.size ∧ Stays g t
  | .extend _ hint => Extends hint
  | .reserve additional => fun g t => t.size = g.size ∧ Provides (g.size + additional) g t
  | .shrinkToFit => Tightens
  | .reset => Resets
  | .clear => fun g t => t.size = 0 ∧ Stays g t

namespace Upkeep

variable {hasher : Hasher K} {U : FixedDict.Upkeep V hasher} {g : GrowDict K V} {m : List (K × V)} {key : K} {b : Nat}
  {x : K × V}

theorem insert_safe (h : U.Kept g) (key : K) (value : V) :
    Safe (fun t => U.Kept t ∧ EntryObeys (.insert key value : EntryCall K V ε R) g t)
      ((insert key value).runOn g) := by
  obtain ⟨m, h⟩ := h
  obtain ⟨b, x, hash, hsearch, hx, -⟩ | ⟨hsearch, hapart⟩ := U.search h.keeps key
  · simp only [insert, runOn_get_bind, runOn_ok_bind, hsearch]
    exact .ok _ ⟨⟨m, h⟩, _, FixedDict.get?_of_search_some hsearch hx, .refl g true⟩
  · simp only [insert, runOn_get_bind, runOn_ok_bind, hsearch]
    refine ((h.insertAbsent_safe (hapart value)).mono ?_).map _
    rintro t ⟨hkept, heffect⟩
    exact ⟨hkept, none, FixedDict.get?_of_search_none hsearch, heffect⟩

theorem onStorage_safe {β : Type} {action : Action (FixedDict K V) β} (h : U.Held g m)
    (hsafe : Safe (fun d => ∃ m', U.Keeps g.capacity d m' ∧ m'.length = m.length) (action.runOn g.storage)) :
    Safe (fun t => U.Kept t ∧ t.size = g.size ∧ Stays g t) ((onStorage action).runOn g) :=
  (h.onStorage_safe (P := (· = m.length)) hsafe).mono fun _ ⟨hkept, hsize, hstays⟩ =>
    ⟨hkept, hsize.trans h.size.symm, hstays⟩

theorem update_safe (h : U.Kept g) (key : K) (value : V) :
    Safe (fun t => U.Kept t ∧ EntryObeys (.update key value : EntryCall K V ε R) g t)
      ((update key value).runOn g) := by
  obtain ⟨m, h⟩ := h
  obtain ⟨b, x, hash, hsearch, hx, -⟩ | ⟨hsearch, hapart⟩ := U.search h.keeps key
  · simp only [update, runOn_get_bind, runOn_ok_bind, hsearch]
    refine ((onStorage_safe h (FixedDict.Upkeep.replaceIn_safe h.keeps hx value)).mono ?_).map _
    rintro t ⟨hkept, hsize, hstays⟩
    exact ⟨hkept, some x.2, FixedDict.get?_of_search_some hsearch hx, .kept hsize hstays⟩
  · simp only [update, runOn_get_bind, runOn_ok_bind, hsearch]
    refine ((h.insertAbsent_safe (hapart value)).mono ?_).map _
    rintro t ⟨hkept, heffect⟩
    exact ⟨hkept, none, FixedDict.get?_of_search_none hsearch, heffect⟩

theorem removeAt_sheds (h : U.Held g m) (hx : g.storage.Holds b x) (content : Option V) :
    ∃ t, (removeAt b).runOn { g with storage := g.storage.assignValue b content } = (.ok (x.1, content), t) ∧
      U.Kept t ∧ Sheds g t :=
  h.takeOut_safe rfl (U.removeAt h.keeps hx content) (U.abandonAt h.keeps hx content)

theorem removeEntry_safe (h : U.Kept g) (key : K) :
    Safe (fun t => U.Kept t ∧ EntryObeys (.removeEntry key : EntryCall K V ε R) g t)
      ((removeEntry key).runOn g) := by
  obtain ⟨m, h⟩ := h
  obtain ⟨b, x, hash, hsearch, hx, -⟩ | ⟨hsearch, -⟩ := U.search h.keeps key
  · obtain ⟨t, hrun, hkept, hsheds⟩ := removeAt_sheds h hx (some x.2)
    rw [FixedDict.assignValue_self hx] at hrun
    simp only [removeEntry, runOn_get_bind, runOn_ok_bind, hsearch, runOn_bind_ok hrun]
    exact .ok _ ⟨hkept, some x.2, FixedDict.get?_of_search_some hsearch hx, .shed hsheds⟩
  · simp only [removeEntry, runOn_get_bind, runOn_ok_bind, hsearch]
    exact .ok _ ⟨⟨m, h⟩, none, FixedDict.get?_of_search_none hsearch, .refl g false⟩

theorem extend_safe (h : U.Kept g) (entries : List (K × V)) (hint : Nat) :
    Safe (fun t => U.Kept t ∧ Extends hint g t) ((extend entries hint).runOn g) := by
  obtain ⟨m, h⟩ := h
  refine (h.reserve_safe hint).bind ?_ fun _ u _ hu => ?_
  · exact fun u ⟨hkept, hsize, hprovides⟩ => ⟨hkept, u, hsize, hprovides, .refl⟩
  · obtain ⟨hkept, hsize, hprovides⟩ := hu
    refine (Safe.forM (P := fun t => U.Kept t ∧ Climbs u t) ?_ entries ⟨hkept, .refl⟩).mono ?_
    · intro entry v ⟨hv, hclimbs⟩
      exact (update_safe (ε := Empty) (R := Empty) hv entry.1 entry.2).mono
        fun t ⟨ht, _, _, heffect⟩ => ⟨ht, hclimbs.step heffect⟩
    · exact fun t ⟨ht, hclimbs⟩ => ⟨ht, u, hsize, hprovides, hclimbs⟩

/-! ### Values made by the caller -/

theorem tryMemoize_safe (h : U.Kept g) (key : K) (compute : K → Except String (Except ε V)) :
    Safe (fun t => U.Kept t ∧ EntryObeys (.tryMemoize key compute : EntryCall K V ε R) g t)
      ((tryMemoize (m := Id) key fun key => unlessAborted (compute key)).runOn g) := by
  obtain ⟨m, h⟩ := h
  obtain ⟨b, x, hash, hsearch, hx, -⟩ | ⟨hsearch, hapart⟩ := U.search h.keeps key
  · rw [runOn_tryMemoize_of_hit hsearch hx]
    exact .ok _ ⟨⟨m, h⟩, _, FixedDict.get?_of_search_some hsearch hx, .refl g true⟩
  · have hget := FixedDict.get?_of_search_none hsearch
    have hholds : ∀ value bucket t, (insertAbsent (key, value) (g.placementHash (key, value))).runOn g =
        (.ok bucket, t) → FixedDict.Holds t.storage bucket (key, value) := by
      intro value bucket t hrun
      rw [← U.holds_eq]
      exact h.holds_of_insertAbsent (hapart value) hrun
    rw [runOn_tryMemoize_of_miss hsearch hholds]
    change Safe _ (settle _ g (unlessAborted (compute key)))
    rcases hcompute : compute key with text | e | value
    · refine .stop ⟨⟨m, h⟩, none, hget, ?_⟩ rfl
      rw [EntryCall.leaves, hcompute]
      exact .refl g false
    · refine .ok _ ⟨⟨m, h⟩, none, hget, ?_⟩
      rw [EntryCall.leaves, hcompute]
      exact .refl g false
    · have hleaves : EntryCall.leaves (.tryMemoize key compute : EntryCall K V ε R) none = some value := by
        rw [EntryCall.leaves, hcompute]
        rfl
      refine ((h.insertAbsent_safe (hapart value)).mono ?_).reply _
      rintro t ⟨hkept, heffect⟩
      exact ⟨hkept, none, hget, by rw [hleaves]; exact heffect⟩

theorem memoize_safe (h : U.Kept g) (key : K) (compute : K → Except String V) :
    Safe (fun t => U.Kept t ∧ EntryObeys (.memoize key compute : EntryCall K V ε R) g t)
      ((memoize (m := Id) key fun key => unlessAborted (compute key)).runOn g) := by
  rw [memoize_unlessAborted]
  refine ((tryMemoize_safe (R := R) h key _).mono ?_).certain
  rintro t ⟨hkept, held, hget, heffect⟩
  rw [EntryCall.leaves_memoize] at heffect
  exact ⟨hkept, held, hget, heffect⟩

theorem edit_safe (h : U.Kept g) (key : K) (f : Option V → Option V × Except String R) :
    Safe (fun t => U.Kept t ∧ EntryObeys (.edit key f : EntryCall K V ε R) g t)
      ((edit (m := Id) key fun held => edited (f held)).runOn g) := by
  obtain ⟨m, h⟩ := h
  obtain ⟨b, x, hash, hsearch, hx, -⟩ | ⟨hsearch, hapart⟩ := U.search h.keeps key
  · have hget := FixedDict.get?_of_search_some hsearch hx
    simp only [edit, runOn_get_bind, runOn_ok_bind, hsearch, lift_eq, runOn_bind_ok (runOn_takeValue hx),
      runOn_call_bind, call_bind, edited]
    cases hleft : (f (some x.2)).1 with
    | some value =>
      obtain ⟨m', hkeeps, hlength⟩ := U.assignValue h.keeps hx value
      have hheld : U.Held { g with storage := g.storage.assignValue b (some value) } m' := ⟨_, h.onSequence, hkeeps⟩
      simp only [runOn_bind_ok (runOn_putValue hx value)]
      refine .answer _ ⟨⟨m', hheld⟩, some x.2, hget, ?_⟩
      rw [EntryCall.leaves, hleft]
      exact .kept (by rw [hheld.size, h.size, hlength]) ⟨U.capacity (U.stores hkeeps), rfl, rfl⟩
    | none =>
      obtain ⟨t, hrun, hkept, hsheds⟩ := removeAt_sheds h hx none
      simp only [runOn_bind_ok hrun]
      refine .answer _ ⟨hkept, some x.2, hget, ?_⟩
      rw [EntryCall.leaves, hleft]
      exact .shed hsheds
  · have hget := FixedDict.get?_of_search_none hsearch
    simp only [edit, runOn_get_bind, runOn_ok_bind, hsearch, runOn_call_bind, call_bind, edited]
    cases hanswer : (f none).2 with
    | error text =>
      refine .stop ⟨⟨m, h⟩, none, hget, ?_⟩ rfl
      rw [EntryCall.leaves, hanswer]
      exact .refl g false
    | ok answer =>
      have hleaves : (EntryCall.edit key f : EntryCall K V ε R).leaves none = (f none).1 := by
        rw [EntryCall.leaves, hanswer]
        rfl
      cases hleft : (f none).1 with
      | none => exact .ok answer ⟨⟨m, h⟩, none, hget, by rw [hleaves, hleft]; exact .refl g false⟩
      | some value =>
        refine ((h.insertAbsent_safe (hapart value)).mono ?_).map _
        rintro t ⟨hkept, heffect⟩
        exact ⟨hkept, none, hget, by rw [hleaves, hleft]; exact heffect⟩

end Upkeep

variable {hasher : Hasher K} {U : FixedDict.Upkeep V hasher} {g : GrowDict K V}

/-- Every call is safe, and obeys the policy. -/
theorem carryOut_safe (h : U.Kept g) (call : Call K V ε R) :
    Safe (fun t => U.Kept t ∧ Obeys call g t) ((carryOut call).runOn g) := by
  obtain ⟨m, hheld⟩ := id h
  cases call with
  | entry call =>
    cases call with
    | insert key value => exact (Upkeep.insert_safe h key value).map _
    | update key value => exact (Upkeep.update_safe h key value).map _
    | memoize key compute => exact (Upkeep.memoize_safe h key compute).map _
    | tryMemoize key compute => exact (Upkeep.tryMemoize_safe h key compute).map _
    | edit key f => exact (Upkeep.edit_safe h key f).map _
    | remove key => exact ((Upkeep.removeEntry_safe (ε := ε) (R := R) h key).map _).map _
    | removeEntry key => exact (Upkeep.removeEntry_safe h key).map _
  | replace key value =>
    exact (Upkeep.onStorage_safe hheld (FixedDict.Upkeep.replace_safe hheld.keeps key value)).map _
  | replaceAt index value =>
    exact (Upkeep.onStorage_safe hheld (FixedDict.Upkeep.replaceAt_safe hheld.keeps index value)).map _
  | editValues n edit =>
    exact (Upkeep.onStorage_safe hheld (FixedDict.Upkeep.editValues_safe hheld.keeps n edit)).map _
  | editEntries n edit =>
    exact (Upkeep.onStorage_safe hheld (FixedDict.Upkeep.editEntries_safe hheld.keeps n edit)).map _
  | extend entries hint => exact Upkeep.extend_safe h entries hint
  | reserve additional => exact hheld.reserve_safe additional
  | shrinkToFit => exact hheld.shrinkToFit_safe
  | reset => exact hheld.reset_safe
  | clear => exact hheld.onStorage_safe (P := (· = 0)) (FixedDict.Upkeep.removeAll_safe hheld.keeps)

/-! ### Making dictionaries -/

variable {minimum : Nat} {seeds : Seeds}

theorem vacant_made (U : FixedDict.Upkeep V hasher) :
    Made (fun g => U.Held g [] ∧ g.journal = []) (vacant minimum hasher seeds) :=
  U.toUpkeep.vacant_made fun _ _ => FixedDict.vacant_made U

theorem ofList_made (U : FixedDict.Upkeep V hasher) (entries : List (K × V)) (hint : Nat) :
    Made U.Kept (ofList hasher seeds entries hint) := by
  refine (vacant_made U).bind fun g h => ?_
  have hextend := Upkeep.extend_safe ⟨[], h.1⟩ entries hint
  split
  · next hrun =>
    rw [hrun] at hextend
    exact .ok hextend.after.1
  · next fault _ hrun =>
    rw [hrun] at hextend
    exact .stop (hextend.contract fault rfl)

end GrowDict

end RobinHood
