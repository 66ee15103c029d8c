import Mathlib.Data.List.Pairwise
import Mathlib.Data.List.Perm.Subperm
import RobinHood.Proofs.Action

/-!
# Ledgers

A ledger is the plain list that a container is measured against. Its entries have keys, no two of them
equal, and their order does not matter. This module has what is looked up, struck out and amended under a
key, for entries of any kind.
-/

namespace RobinHood.Ledger

variable {α K : Type} [BEq K]

def lookup (keyOf : α → K) (m : List α) (k : K) : Option α :=
  m.find? fun x => keyOf x == k

/-- The entries but for the one under a key. -/
def strike (keyOf : α → K) (m : List α) (k : K) : List α :=
  m.filter fun x => !(keyOf x == k)

def amend (keyOf : α → K) (f : α → α) (m : List α) (k : K) : List α :=
  m.map fun x => if keyOf x == k then f x else x

/-- How much a container may hold, and how it refuses more. -/
structure Room where
  limit : Nat
  refusal : Fault

/-- Adds an entry and gives `reply`, if there is room. -/
def enter {β : Type} (room : Room) (m : List α) (x : α) (reply : β) : Except Fault β × List α :=
  if m.length < room.limit then (.ok reply, x :: m) else (.error room.refusal, m)

theorem enter_eq_of_room {β : Type} {room room' : Room} {m : List α} {x : α} {answer : β}
    (hroom : (enter room m x answer).1 ≠ .error room.refusal)
    (hroom' : (enter room' m x answer).1 ≠ .error room'.refusal) :
    enter room m x answer = enter room' m x answer := by
  rw [enter] at hroom hroom' ⊢
  rw [enter]
  split at hroom
  · split at hroom'
    · rw [if_pos ‹_›, if_pos ‹_›]
    · exact absurd rfl hroom'
  · exact absurd rfl hroom

def reserve (room : Room) (n : Nat) (m : List α) : Except Fault Unit × List α :=
  if m.length + n ≤ room.limit then (.ok (), m) else (.error room.refusal, m)

/-- No two entries have equal keys. -/
def Distinct (keyOf : α → K) (m : List α) : Prop :=
  m.Pairwise fun x y => (keyOf x == keyOf y) = false

variable {keyOf : α → K} {m m' : List α} {x : α} {k : K}

theorem distinct_nil : Distinct keyOf ([] : List α) :=
  .nil

theorem lookup_eq_none_iff : lookup keyOf m k = none ↔ ∀ x ∈ m, (keyOf x == k) = false := by
  simp only [lookup, List.find?_eq_none, Bool.not_eq_true]

theorem lookup_cons_self (hx : (keyOf x == k) = true) : lookup keyOf (x :: m) k = some x :=
  List.find?_cons_of_pos hx

theorem lookup_append (keyOf : α → K) (m m' : List α) (k : K) :
    lookup keyOf (m ++ m') k = (lookup keyOf m k).or (lookup keyOf m' k) :=
  List.find?_append

theorem isSome_lookup_iff : (lookup keyOf m k).isSome = true ↔ ∃ x ∈ m, (keyOf x == k) = true :=
  List.find?_isSome

/-- The action adds `x` to what a state keeps, and answers its bucket; or it refuses for lack of room. -/
def Enters {σ : Type} (Related : σ → List α → Prop) (Holds : σ → Nat → α → Prop) (room : Room)
    (action : Action σ Nat) (s : σ) (m : List α) (x : α) : Prop :=
  if m.length < room.limit then
    ∃ t bucket, action.runOn s = (.ok bucket, t) ∧ Related t (x :: m) ∧ Holds t bucket x
  else action.runOn s = (.error room.refusal, s)

/-- An action that enters `x` does what is expected of a ledger, whatever reply is given afterwards. -/
theorem Enters.alike {σ β : Type} {Related : σ → List α → Prop} {Holds : σ → Nat → α → Prop} {room : Room}
    {action : Action σ Nat} {s : σ} {m : List α} {x : α} (h : Enters Related Holds room action s m x)
    (hrelated : Related s m) (answer : β) :
    Alike Related ((do let _ ← action; return answer : Action σ β).runOn s) (enter room m x answer) := by
  rw [enter]
  by_cases hroom : m.length < room.limit
  · rw [Enters, if_pos hroom] at h
    obtain ⟨t, bucket, hrun, hentered, -⟩ := h
    rw [if_pos hroom, Action.runOn_bind_ok hrun]
    exact ⟨rfl, hentered⟩
  · rw [Enters, if_neg hroom] at h
    rw [if_neg hroom, Action.runOn_bind_error h]
    exact ⟨rfl, hrelated⟩

theorem Enters.holds {σ : Type} {Related : σ → List α → Prop} {Holds : σ → Nat → α → Prop} {room : Room}
    {action : Action σ Nat} {s t : σ} {m : List α} {x : α} {bucket : Nat}
    (h : Enters Related Holds room action s m x) (hrun : action.runOn s = (.ok bucket, t)) : Holds t bucket x := by
  rw [Enters] at h
  split at h
  · obtain ⟨t', bucket', hrun', -, hholds⟩ := h
    cases hrun.symm.trans hrun'
    exact hholds
  · cases hrun.symm.trans h

theorem mem_of_lookup (h : lookup keyOf m k = some x) : x ∈ m ∧ (keyOf x == k) = true :=
  ⟨List.mem_of_find?_eq_some h, by simpa using List.find?_some h⟩

theorem strike_of_lookup_none (h : lookup keyOf m k = none) : strike keyOf m k = m := by
  rw [strike, List.filter_eq_self]
  intro x hx
  rw [lookup_eq_none_iff.mp h x hx]
  rfl

theorem mem_foldl_strike (keys : List K) : ∀ {m : List α},
    x ∈ keys.foldl (strike keyOf) m ↔ x ∈ m ∧ ∀ key ∈ keys, (keyOf x == key) = false := by
  induction keys with
  | nil => simp
  | cons key keys ih =>
    intro m
    rw [List.foldl_cons, ih, strike, List.mem_filter, Bool.not_eq_true', and_assoc, List.forall_mem_cons]

/-- Nothing is left if the keys of all entries are struck, in whatever order. -/
theorem foldl_strike_eq_nil {keys : List K} (h : ∀ x ∈ m, ∃ key ∈ keys, (keyOf x == key) = true) :
    keys.foldl (strike keyOf) m = [] := by
  refine List.eq_nil_iff_forall_not_mem.mpr fun x hx => ?_
  obtain ⟨hmem, hapart⟩ := (mem_foldl_strike keys).mp hx
  obtain ⟨key, hkey, hequal⟩ := h x hmem
  exact Bool.false_ne_true ((hapart key hkey).symm.trans hequal)

theorem strike_perm (keyOf : α → K) (h : m.Perm m') (k : K) : (strike keyOf m k).Perm (strike keyOf m' k) :=
  h.filter _

theorem amend_perm (keyOf : α → K) (h : m.Perm m') (f : α → α) (k : K) :
    (amend keyOf f m k).Perm (amend keyOf f m' k) :=
  h.map _

theorem amend_of_lookup_none (f : α → α) (h : lookup keyOf m k = none) : amend keyOf f m k = m := by
  refine (List.map_congr_left fun x hx => ?_).trans (List.map_id' m)
  rw [lookup_eq_none_iff.mp h x hx]
  rfl

theorem Distinct.strike (h : Distinct keyOf m) (k : K) : Distinct keyOf (strike keyOf m k) :=
  h.filter _

variable [EquivBEq K]

theorem lookup_congr (keyOf : α → K) (m : List α) {k' : K} (hk : (k == k') = true) :
    lookup keyOf m k = lookup keyOf m k' := by
  rw [lookup, lookup]
  congr 1
  funext x
  exact BEq.congr_right hk

theorem Distinct.perm (h : Distinct keyOf m) (hperm : m.Perm m') : Distinct keyOf m' :=
  (hperm.pairwise_iff fun {x y} hxy => by rw [BEq.comm, hxy]).mp h

theorem Distinct.cons (h : Distinct keyOf m) (hnone : lookup keyOf m (keyOf x) = none) :
    Distinct keyOf (x :: m) := by
  refine List.pairwise_cons.mpr ⟨fun y hy => ?_, h⟩
  rw [BEq.comm]
  exact lookup_eq_none_iff.mp hnone y hy

theorem Distinct.amend (h : Distinct keyOf m) {f : α → α}
    (hf : ∀ x, (keyOf x == k) = true → (keyOf (f x) == keyOf x) = true) : Distinct keyOf (amend keyOf f m k) := by
  have hkey : ∀ x, (keyOf (if keyOf x == k then f x else x) == keyOf x) = true := by
    intro x
    split
    · exact hf x ‹_›
    · exact BEq.rfl
  refine List.pairwise_map.mpr (h.imp fun {x y} hxy => ?_)
  rw [BEq.congr_left (hkey x), BEq.congr_right (hkey y), hxy]

theorem Distinct.eq_of_mem (h : Distinct keyOf m) {y : α} (hx : x ∈ m) (hy : y ∈ m)
    (hkey : (keyOf x == keyOf y) = true) : x = y := by
  have hsymm : Std.Symm fun x y : α => (keyOf x == keyOf y) = false := ⟨fun _ _ hxy => BEq.symm_false hxy⟩
  by_contra hne
  cases (h.forall hx hy hne).symm.trans hkey

theorem Distinct.lookup_of_mem (h : Distinct keyOf m) (hx : x ∈ m) (hk : (keyOf x == k) = true) :
    lookup keyOf m k = some x := by
  cases hfound : lookup keyOf m k with
  | none => cases (lookup_eq_none_iff.mp hfound x hx).symm.trans hk
  | some y =>
    obtain ⟨hy, hyk⟩ := mem_of_lookup hfound
    rw [h.eq_of_mem hy hx (BEq.trans hyk (BEq.symm hk))]

private theorem Distinct.others (h : Distinct keyOf (x :: m)) (hk : (keyOf x == k) = true) :
    ∀ y ∈ m, (keyOf y == k) = false := by
  intro y hy
  rw [← BEq.congr_right hk, BEq.comm]
  exact List.rel_of_pairwise_cons h hy

theorem strike_cons (h : Distinct keyOf (x :: m)) (hk : (keyOf x == k) = true) :
    strike keyOf (x :: m) k = m := by
  rw [strike, List.filter_cons_of_neg (by simp [hk]), List.filter_eq_self]
  intro y hy
  rw [h.others hk y hy]
  rfl

/-- The entry under a key stands apart from the others. -/
theorem Distinct.perm_cons_strike (h : Distinct keyOf m) (hx : x ∈ m) (hk : (keyOf x == k) = true) :
    m.Perm (x :: Ledger.strike keyOf m k) := by
  obtain ⟨before, after, rfl⟩ := List.append_of_mem hx
  have hfront : (before ++ x :: after).Perm (x :: (before ++ after)) := List.perm_middle
  have hstrike := strike_perm keyOf hfront k
  rw [strike_cons (h.perm hfront) hk] at hstrike
  exact hfront.trans (hstrike.symm.cons x)

theorem Distinct.length_strike (h : Distinct keyOf m) (hx : x ∈ m) :
    (Ledger.strike keyOf m (keyOf x)).length + 1 = m.length :=
  (h.perm_cons_strike hx BEq.rfl).length_eq.symm

/-- Entries that have counterparts with equal keys are found among these, by what `f` sees of both. -/
theorem Distinct.map_subperm {β : Type} {f : α → β} (h : Distinct keyOf m)
    (hcounterpart : ∀ x ∈ m, ∃ y ∈ m', (keyOf y == keyOf x) = true ∧ f y = f x) : (m.map f).Subperm (m'.map f) := by
  induction m generalizing m' with
  | nil => exact List.nil_subperm
  | cons x m ih =>
    obtain ⟨y, hy, hyx, hf⟩ := hcounterpart x List.mem_cons_self
    obtain ⟨before, after, rfl⟩ := List.append_of_mem hy
    have hrest : (m.map f).Subperm ((before ++ after).map f) := by
      apply ih (List.Pairwise.of_cons h)
      intro z hz
      obtain ⟨w, hw, hwz, hfw⟩ := hcounterpart z (List.mem_cons_of_mem x hz)
      have hother : w ≠ y := by
        rintro rfl
        cases (List.rel_of_pairwise_cons h hz).symm.trans (BEq.trans (BEq.symm hyx) hwz)
      exact ⟨w, (List.mem_cons.mp (List.perm_middle.mem_iff.mp hw)).resolve_left hother, hwz, hfw⟩
    have hfront : (f x :: (before ++ after).map f).Perm ((before ++ y :: after).map f) := by
      rw [← hf, ← List.map_cons]
      exact (List.perm_middle.map f).symm
    rw [List.map_cons]
    exact ((List.subperm_cons (f x)).mpr hrest).trans hfront.subperm

/-- Entries that have counterparts with equal keys are counted among these, by what equal keys have in common. -/
theorem Distinct.countP_le {q : α → Bool} (h : Distinct keyOf m)
    (hq : ∀ x y, (keyOf x == keyOf y) = true → q x = q y)
    (hcounterpart : ∀ x ∈ m, ∃ y ∈ m', (keyOf y == keyOf x) = true) : m.countP q ≤ m'.countP q := by
  have hamong : (m.map q).Subperm (m'.map q) := by
    apply h.map_subperm
    intro x hx
    obtain ⟨y, hy, hyx⟩ := hcounterpart x hx
    exact ⟨y, hy, hyx, hq y x hyx⟩
  have hle := hamong.countP_le id
  rwa [List.countP_map, List.countP_map] at hle

theorem Distinct.length_le (h : Distinct keyOf m) (hcounterpart : ∀ x ∈ m, ∃ y ∈ m', (keyOf y == keyOf x) = true) :
    m.length ≤ m'.length := by
  have hle := h.countP_le (q := fun _ => true) (fun _ _ _ => rfl) hcounterpart
  rwa [List.countP_true] at hle

/-- If entries have counterparts among no more than as many, no other entries are there. -/
theorem Distinct.exists_counterpart (h : Distinct keyOf m) (h' : Distinct keyOf m') (hle : m'.length ≤ m.length)
    (hcounterpart : ∀ x ∈ m, ∃ y ∈ m', (keyOf y == keyOf x) = true) {y : α} (hy : y ∈ m') :
    ∃ x ∈ m, (keyOf x == keyOf y) = true := by
  by_contra hnone
  -- Without `y` there would be too few counterparts.
  have hstruck : m.length ≤ (Ledger.strike keyOf m' (keyOf y)).length := by
    apply h.length_le
    intro x hx
    obtain ⟨z, hz, hzx⟩ := hcounterpart x hx
    refine ⟨z, List.mem_filter.mpr ⟨hz, ?_⟩, hzx⟩
    rw [Bool.not_eq_true']
    by_contra hzy
    rw [Bool.not_eq_false] at hzy
    exact hnone ⟨x, hx, BEq.trans (BEq.symm hzx) hzy⟩
  have hlength := h'.length_strike hy
  omega

theorem Distinct.same_keys_iff (h : Distinct keyOf m) (h' : Distinct keyOf m') :
    (∀ k, (lookup keyOf m k).isSome = (lookup keyOf m' k).isSome) ↔
      m.length = m'.length ∧ ∀ x ∈ m, (lookup keyOf m' (keyOf x)).isSome = true := by
  constructor
  · intro hsame
    have hin : ∀ x ∈ m, ∃ y ∈ m', (keyOf y == keyOf x) = true := fun x hx =>
      isSome_lookup_iff.mp ((hsame _).symm.trans (isSome_lookup_iff.mpr ⟨x, hx, BEq.rfl⟩))
    have hback : ∀ y ∈ m', ∃ x ∈ m, (keyOf x == keyOf y) = true := fun y hy =>
      isSome_lookup_iff.mp ((hsame _).trans (isSome_lookup_iff.mpr ⟨y, hy, BEq.rfl⟩))
    exact ⟨Nat.le_antisymm (h.length_le hin) (h'.length_le hback), fun x hx => isSome_lookup_iff.mpr (hin x hx)⟩
  · rintro ⟨hlength, hin⟩ k
    have hcounterpart : ∀ x ∈ m, ∃ y ∈ m', (keyOf y == keyOf x) = true := fun x hx => isSome_lookup_iff.mp (hin x hx)
    rw [Bool.eq_iff_iff, isSome_lookup_iff, isSome_lookup_iff]
    constructor
    · rintro ⟨x, hx, hxk⟩
      obtain ⟨y, hy, hyx⟩ := hcounterpart x hx
      exact ⟨y, hy, BEq.trans hyx hxk⟩
    · rintro ⟨y, hy, hyk⟩
      obtain ⟨x, hx, hxy⟩ := h.exists_counterpart h' (Nat.le_of_eq hlength.symm) hcounterpart hy
      exact ⟨x, hx, BEq.trans hxy hyk⟩

theorem amend_cons (h : Distinct keyOf (x :: m)) (f : α → α) (hk : (keyOf x == k) = true) :
    amend keyOf f (x :: m) k = f x :: m := by
  have hsame : m.map (fun y => if keyOf y == k then f y else y) = m :=
    (List.map_congr_left fun y hy => by simp [h.others hk y hy]).trans (List.map_id' m)
  rw [amend, List.map_cons, if_pos hk, hsame]

end RobinHood.Ledger
