import RobinHood.Proofs.FixedDict.Sturdy

/-!
# Comparing dictionaries

A comparison asks about the values of the entries that have a counterpart, one after the other, up to the first
that has none or is refused. Only the entries of one side are gone through. As there are as many on the other
side, none is left over there when each has its counterpart.
-/

namespace RobinHood.FixedDict

open RobinHood.Ledger

variable {K V : Type}

/-- A key of two dictionaries, with the values that they have under it. -/
structure Shared (K V : Type) where
  key : K
  value : V
  counterpart : V

namespace Shared

def entry (x : Shared K V) : K × V :=
  (x.key, x.value)

def values (x : Shared K V) : V × V :=
  (x.value, x.counterpart)

end Shared

def recorded (f : V → V → Bool) (value counterpart : V) : StateM (List (V × V)) Bool := do
  modify (· ++ [(value, counterpart)])
  return f value counterpart

theorem run_recorded (f : V → V → Bool) (value counterpart : V) (record : List (V × V)) :
    (recorded f value counterpart).run record =
      pure (f value counterpart, record ++ [(value, counterpart)]) := rfl

/-- A relation is called up to the first time that it refuses. -/
theorem exists_calls (f : V → V → Bool) (asked : List (Shared K V)) : ∃ calls, calls <+: asked ∧
    (asked.all (fun x => f x.value x.counterpart) = true → calls = asked) ∧
    ∀ record, (asked.allM fun x => recorded f x.value x.counterpart).run record =
      pure (asked.all fun x => f x.value x.counterpart, record ++ calls.map Shared.values) := by
  induction asked with
  | nil => exact ⟨[], List.prefix_rfl, fun _ => rfl, fun record => by rw [List.map_nil, List.append_nil]; rfl⟩
  | cons x rest ih =>
    obtain ⟨calls, hinitial, hall, hrun⟩ := ih
    cases haccepted : f x.value x.counterpart with
    | false =>
      refine ⟨[x], List.cons_prefix_cons.mpr ⟨rfl, List.nil_prefix⟩, ?_, fun record => ?_⟩
      · rw [List.all_cons, haccepted]
        exact nofun
      · rw [List.allM_cons, List.all_cons, StateT.run_bind, run_recorded, pure_bind, haccepted]
        rfl
    | true =>
      refine ⟨x :: calls, List.cons_prefix_cons.mpr ⟨rfl, hinitial⟩, fun hrest => ?_, fun record => ?_⟩
      · rw [List.all_cons, haccepted] at hrest
        rw [hall hrest]
      · rw [List.allM_cons, List.all_cons, StateT.run_bind, run_recorded, pure_bind, haccepted, if_pos rfl, hrun,
          List.append_assoc]
        rfl

variable [BEq K]

def Agree (f : V → V → Bool) (d e : FixedDict K V) : Prop :=
  d.keys.SameKeys e.keys ∧
    ∀ key value counterpart, d.get? key = .ok (some value) → e.get? key = .ok (some counterpart) →
      f value counterpart = true

/-- Each is a key with the values of both dictionaries, and no two have equal keys. -/
structure Matched (d e : FixedDict K V) (asked : List (Shared K V)) : Prop where
  values : ∀ x ∈ asked, d.get? x.key = .ok (some x.value) ∧ e.get? x.key = .ok (some x.counterpart)
  once : asked.Pairwise fun x y => (x.key == y.key) = false

def Covered (d : FixedDict K V) (asked : List (Shared K V)) : Prop :=
  ∀ key, d.contains key = .ok true → ∃ x ∈ asked, (x.key == key) = true

/-- Whatever is used to compare values, it is asked about what the dictionaries share until it refuses. If it does
not, the answer is whether the keys are the same. -/
structure Asks (d e : FixedDict K V) (asked : List (Shared K V)) (alike : Bool) : Prop extends
    Matched d e asked where
  covered : alike = true → d.Covered asked
  sameKeys : alike = true ↔ d.keys.SameKeys e.keys
  run : ∀ {M : Type → Type} [Monad M] [LawfulMonad M] (same : V → V → M Bool),
    (d.equalsBy same (.other e)).run =
      (fun accepted => .ok (accepted && alike)) <$> asked.allM fun x => same x.value x.counterpart

/-- Comparing by a relation has the answer, and the relation is called on the values in `calls`. -/
structure Compares (f : V → V → Bool) (d e : FixedDict K V) (answer : Bool) (calls : List (Shared K V)) : Prop extends
    Matched d e calls where
  covered : answer = true → d.Covered calls
  agree : answer = true ↔ d.Agree f e
  run : (d.equalsBy (recorded f) (.other e)).run.run [] = (.ok answer, calls.map Shared.values)
  pure : (d.equalsBy (m := Id) (fun value counterpart => pure (f value counterpart)) (.other e)).run = .ok answer

/-! ### What the entries share with a ledger -/

/-- The entries with their counterparts, up to the first that has none. -/
def shared (m' : List (K × V)) : List (K × V) → List (Shared K V)
  | [] => []
  | (key, value) :: rest =>
    match Ledger.value m' key with
    | some counterpart => ⟨key, value, counterpart⟩ :: shared m' rest
    | none => []

variable {m' entries : List (K × V)}

theorem counterpart_of_mem_shared {x : Shared K V} (hx : x ∈ shared m' entries) :
    Ledger.value m' x.key = some x.counterpart := by
  induction entries with
  | nil => cases hx
  | cons entry rest ih =>
    rw [shared] at hx
    cases hvalue : Ledger.value m' entry.1 with
    | none =>
      rw [hvalue] at hx
      cases hx
    | some counterpart =>
      rw [hvalue] at hx
      obtain rfl | hrest := List.mem_cons.mp hx
      · exact hvalue
      · exact ih hrest

theorem shared_initial (m' entries : List (K × V)) : (shared m' entries).map Shared.entry <+: entries := by
  induction entries with
  | nil => exact List.prefix_rfl
  | cons entry rest ih =>
    rw [shared]
    cases Ledger.value m' entry.1 with
    | none => exact List.nil_prefix
    | some counterpart => exact List.cons_prefix_cons.mpr ⟨rfl, ih⟩

theorem map_entry_shared (hall : ∀ entry ∈ entries, (Ledger.value m' entry.1).isSome = true) :
    (shared m' entries).map Shared.entry = entries := by
  induction entries with
  | nil => rfl
  | cons entry rest ih =>
    obtain ⟨counterpart, hvalue⟩ := Option.isSome_iff_exists.mp (hall entry List.mem_cons_self)
    rw [shared, hvalue]
    exact congrArg (entry :: ·) (ih fun x hx => hall x (List.mem_cons_of_mem entry hx))

section Asking

variable {M : Type → Type} [Monad M] [LawfulMonad M] {body : K × V → ExceptT Fault M Bool} {same : V → V → M Bool}

theorem run_allM_eq (hbody : ∀ entry, (body entry).run =
      match Ledger.value m' entry.1 with
      | some counterpart => Except.ok <$> same entry.2 counterpart
      | none => pure (.ok false)) :
    (entries.allM body).run =
      (fun accepted => .ok (accepted && entries.all fun entry => (Ledger.value m' entry.1).isSome)) <$>
        (shared m' entries).allM fun x => same x.value x.counterpart := by
  induction entries with
  | nil =>
    rw [shared, List.allM_nil, List.allM_nil, map_pure]
    rfl
  | cons entry rest ih =>
    rw [List.allM_cons, ExceptT.run_bind, hbody, shared, List.all_cons]
    cases hvalue : Ledger.value m' entry.1 with
    | none =>
      rw [pure_bind, Option.isSome_none, Bool.false_and, List.allM_nil, map_pure, Bool.and_false]
      rfl
    | some counterpart =>
      rw [List.allM_cons, bind_map_left, map_bind]
      apply bind_congr
      intro accepted
      cases accepted with
      | false =>
        rw [if_neg Bool.false_ne_true, map_pure, Bool.false_and]
        rfl
      | true => exact ih

end Asking

/-! ### Keeping ledgers -/

variable [EquivBEq K] {hasher hasher' : Hasher K} {c c' : Nat} {d e : FixedDict K V} {m : List (K × V)}

theorem Keeps.run_counterpart {M : Type → Type} [Monad M] [LawfulMonad M] (he : Keeps hasher' c' e m')
    (hlawful : hasher'.Lawful) (same : V → V → M Bool) (entry : K × V) :
    (do
      match (← e.keys.search entry.1).bucket with
      | some bucket =>
        let counterpart ← e.values.get bucket
        same entry.2 counterpart
      | none => return false : ExceptT Fault M Bool).run =
      match Ledger.value m' entry.1 with
      | some counterpart => Except.ok <$> same entry.2 counterpart
      | none => pure (.ok false) := by
  obtain ⟨bucket, x, hsearch, hx, hlookup⟩ | ⟨hsearch, hlookup⟩ := he.search hlawful entry.1
  · rw [hsearch, answered_bind, Ledger.value, hlookup]
    dsimp only
    rw [Slots.get_of_occupant hx.2, answered_bind]
    rfl
  · rw [hsearch, answered_bind, Ledger.value, hlookup]
    rfl

theorem Keeps.contains_iff (hd : Keeps hasher c d m) (hlawful : hasher.Lawful) (key : K) :
    d.contains key = .ok true ↔ ∃ value, d.get? key = .ok (some value) := by
  rw [hd.contains hlawful, hd.get? hlawful, Except.ok.injEq, Option.isSome_iff_exists]
  simp only [Except.ok.injEq]

theorem Keeps.get?_congr (hd : Keeps hasher c d m) (hlawful : hasher.Lawful) {key key' : K}
    (hkey : (key == key') = true) : d.get? key = d.get? key' := by
  rw [hd.get? hlawful, hd.get? hlawful, Ledger.value, Ledger.value, lookup_congr _ _ hkey]

theorem Keeps.sameKeys_iff (hd : Keeps hasher c d m) (he : Keeps hasher' c' e m') (hlawful : hasher.Lawful)
    (hlawful' : hasher'.Lawful) : d.keys.SameKeys e.keys ↔
      m.length = m'.length ∧ ∀ entry ∈ m, (Ledger.value m' entry.1).isSome = true := by
  simp only [isSome_value]
  rw [← hd.shows.distinct.same_keys_iff he.shows.distinct]
  apply forall_congr'
  intro key
  have hleft : d.keys.contains key = .ok (Ledger.value m key).isSome := hd.contains hlawful key
  have hright : e.keys.contains key = .ok (Ledger.value m' key).isSome := he.contains hlawful' key
  rw [hleft, hright, isSome_value, isSome_value, Except.ok.injEq, Except.ok.injEq]
  exact Bool.eq_iff_iff.symm

theorem Keeps.matched (hd : Keeps hasher c d m) (he : Keeps hasher' c' e m') (hlawful : hasher.Lawful)
    (hlawful' : hasher'.Lawful) (hperm : entries.Perm m) : Matched d e (shared m' entries) where
  values x hx := by
    have hmem : x.entry ∈ m :=
      hperm.mem_iff.mp ((shared_initial m' entries).subset (List.mem_map_of_mem hx))
    have hlookup : lookup Prod.fst m x.key = some x.entry := hd.shows.distinct.lookup_of_mem hmem BEq.rfl
    rw [hd.get? hlawful, he.get? hlawful', counterpart_of_mem_shared hx, Ledger.value, hlookup]
    exact ⟨rfl, rfl⟩
  once := List.pairwise_map.mp ((hd.shows.distinct.perm hperm.symm).sublist (shared_initial m' entries).sublist)

theorem Keeps.covered (hd : Keeps hasher c d m) (hlawful : hasher.Lawful) (hperm : entries.Perm m)
    (hall : ∀ entry ∈ entries, (Ledger.value m' entry.1).isSome = true) : d.Covered (shared m' entries) := by
  intro key hkey
  rw [hd.contains hlawful, Except.ok.injEq, isSome_value, isSome_lookup_iff] at hkey
  obtain ⟨entry, hentry, hk⟩ := hkey
  rw [← hperm.mem_iff, ← map_entry_shared hall] at hentry
  obtain ⟨x, hx, rfl⟩ := List.mem_map.mp hentry
  exact ⟨x, hx, hk⟩

theorem Keeps.exists_asks (hd : Keeps hasher c d m) (he : Keeps hasher' c' e m') (hlawful : hasher.Lawful)
    (hlawful' : hasher'.Lawful) : ∃ asked alike, Asks d e asked alike := by
  obtain ⟨entries, hlisted, hperm⟩ := hd.shows.entries
  have hsame := hd.sameKeys_iff he hlawful hlawful'
  by_cases hlength : m.length = m'.length
  · refine ⟨shared m' entries, entries.all fun entry => (Ledger.value m' entry.1).isSome,
      hd.matched he hlawful hlawful' hperm, fun hall => ?_, ?_, fun same => ?_⟩
    · exact hd.covered hlawful hperm (List.all_eq_true.mp hall)
    · rw [hsame, List.all_eq_true]
      exact ⟨fun hall => ⟨hlength, fun entry hentry => hall entry (hperm.mem_iff.mpr hentry)⟩,
        fun hkeys entry hentry => hkeys.2 entry (hperm.mem_iff.mp hentry)⟩
    · rw [equalsBy, hd.shows.size, he.shows.size, if_pos hlength, hlisted, answered_bind]
      exact run_allM_eq (he.run_counterpart hlawful' same)
  · refine ⟨[], false, ⟨List.forall_mem_nil _, .nil⟩, fun hnever => absurd hnever Bool.false_ne_true,
      iff_of_false Bool.false_ne_true fun hkeys => hlength (hsame.mp hkeys).1, fun same => ?_⟩
    rw [equalsBy, hd.shows.size, he.shows.size, if_neg hlength, List.allM_nil, map_pure]
    rfl

theorem Keeps.agree_iff (hd : Keeps hasher c d m) (he : Keeps hasher' c' e m') (hlawful : hasher.Lawful)
    (hlawful' : hasher'.Lawful) {asked : List (Shared K V)} (hmatched : Matched d e asked)
    (hcovered : d.keys.SameKeys e.keys → d.Covered asked) (f : V → V → Bool) :
    Agree f d e ↔ d.keys.SameKeys e.keys ∧ asked.all (fun x => f x.value x.counterpart) = true := by
  apply and_congr_right
  intro hkeys
  rw [List.all_eq_true]
  constructor
  · intro hvalues x hx
    obtain ⟨hvalue, hcounterpart⟩ := hmatched.values x hx
    exact hvalues _ _ _ hvalue hcounterpart
  · intro hall key value counterpart hvalue hcounterpart
    obtain ⟨x, hx, hxkey⟩ := hcovered hkeys key ((hd.contains_iff hlawful key).mpr ⟨value, hvalue⟩)
    obtain ⟨hxvalue, hxcounterpart⟩ := hmatched.values x hx
    -- The key that was asked about has the same values.
    rw [hd.get?_congr hlawful hxkey, hvalue] at hxvalue
    rw [he.get?_congr hlawful' hxkey, hcounterpart] at hxcounterpart
    cases hxvalue
    cases hxcounterpart
    exact hall x hx

omit [EquivBEq K] in
theorem Agree.symm {f : V → V → Bool} (hf : ∀ v w, f v w = true → f w v = true) (h : Agree f d e) : Agree f e d :=
  ⟨fun key => (h.1 key).symm, fun key value counterpart hvalue hcounterpart =>
    hf _ _ (h.2 key counterpart value hcounterpart hvalue)⟩

/-- A key of the outer dictionaries has a value in the one between them. -/
theorem Agree.trans {f : V → V → Bool} (hf : ∀ u v w, f u v = true → f v w = true → f u w = true)
    (hd : Keeps hasher c d m) (he : Keeps hasher' c' e m') (hlawful : hasher.Lawful) (hlawful' : hasher'.Lawful)
    {z : FixedDict K V} (h : Agree f d e) (h' : Agree f e z) : Agree f d z := by
  refine ⟨fun key => (h.1 key).trans (h'.1 key), fun key value counterpart hvalue hcounterpart => ?_⟩
  have hkey : e.contains key = .ok true := (h.1 key).mp ((hd.contains_iff hlawful key).mpr ⟨value, hvalue⟩)
  obtain ⟨between, hbetween⟩ := (he.contains_iff hlawful' key).mp hkey
  exact hf _ _ _ (h.2 key value between hvalue hbetween) (h'.2 key between counterpart hbetween hcounterpart)

theorem Keeps.exists_compares (hd : Keeps hasher c d m) (he : Keeps hasher' c' e m') (hlawful : hasher.Lawful)
    (hlawful' : hasher'.Lawful) (f : V → V → Bool) : ∃ answer calls, Compares f d e answer calls := by
  obtain ⟨asked, alike, hasks⟩ := hd.exists_asks he hlawful hlawful'
  obtain ⟨calls, hinitial, hall, hrun⟩ := exists_calls f asked
  refine ⟨asked.all (fun x => f x.value x.counterpart) && alike, calls, ⟨?_, ?_⟩, ?_, ?_, ?_, ?_⟩
  · exact fun x hx => hasks.values x (hinitial.subset hx)
  · exact hasks.once.sublist hinitial.sublist
  · intro hanswer
    rw [Bool.and_eq_true] at hanswer
    rw [hall hanswer.1]
    exact hasks.covered hanswer.2
  · rw [hd.agree_iff he hlawful hlawful' hasks.toMatched (fun hkeys => hasks.covered (hasks.sameKeys.mpr hkeys)),
      ← hasks.sameKeys, Bool.and_eq_true, and_comm]
  · rw [hasks.run, StateT.run_map, hrun, List.nil_append]
    rfl
  · rw [hasks.run, List.allM_pure]
    rfl

end RobinHood.FixedDict
