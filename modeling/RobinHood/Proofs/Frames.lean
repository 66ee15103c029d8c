import RobinHood.Proofs.Aftermath

/-!
# Calls that leave everyone in place

A call that neither adds nor removes a key moves nothing. It looks for the key before it asks for room, and does not
ask whether the storage is too sparse unless it has removed something. So the table stays what it was, a growing
container keeps its storage and writes nothing down, and at most a representative or a value is exchanged where it is.
-/

namespace RobinHood

open RobinHood.Action

variable {α K V ε R : Type}

/-! ### What stays -/

/-- The slots hold elements in the same buckets, and the same ones in all buckets that are not addressed. -/
structure Slots.Frames (addressed : Nat → Prop) (slots t : Slots α) : Prop where
  size : t.size = slots.size
  occupied : ∀ b, (t.occupant b).isSome = (slots.occupant b).isSome
  same : ∀ b, ¬ addressed b → t.occupant b = slots.occupant b

/-- All members are where they were. An addressed one may have been exchanged for a key that equals it. -/
structure FixedSet.Unmoved [BEq K] (addressed : Nat → Prop) (s t : FixedSet K) : Prop where
  table : t.table = s.table
  hasher : t.hasher = s.hasher
  slots : s.slots.Frames addressed t.slots
  memberAt : ∀ i, t.memberAt i = s.memberAt i ∨
    addressed i ∧ ∃ x y, s.memberAt i = .ok x ∧ t.memberAt i = .ok y ∧ (x == y) = true
  search : ∀ [EquivBEq K] (key : K), t.search key = s.search key

/-- All keys are where they were. An addressed one may have another value. -/
structure FixedDict.Unmoved (addressed : Nat → Prop) (d e : FixedDict K V) : Prop where
  keys : e.keys = d.keys
  values : d.values.Frames addressed e.values
  entryAt : ∀ i, e.entryAt i = d.entryAt i ∨
    addressed i ∧ ∃ key v w, d.entryAt i = .ok (key, v) ∧ e.entryAt i = .ok (key, w)

namespace Slots

variable {addressed : Nat → Prop} {slots t : Slots α} {b : Nat}

theorem Frames.refl (addressed : Nat → Prop) (slots : Slots α) : slots.Frames addressed slots :=
  ⟨rfl, fun _ => rfl, fun _ _ => rfl⟩

theorem Frames.assign {x : α} (hx : slots.occupant b = some x) (haddressed : addressed b) (y : α) :
    slots.Frames addressed (slots.assign b (some y)) where
  size := size_assign slots b (some y)
  occupied i := by
    rw [isSome_assign (lt_size_of_occupant hx)]
    split
    · next hi => rw [hi, hx, Option.isSome_some, Option.isSome_some]
    · rfl
  same i hi := by
    rw [occupant_assign (lt_size_of_occupant hx)]
    apply Function.update_of_ne
    rintro rfl
    exact hi haddressed

theorem Frames.get (h : slots.Frames addressed t) {i : Nat} (hi : ¬ addressed i) : t.get i = slots.get i :=
  get_congr h.size (h.same i hi)

theorem EditedTo.occupant_of_placed {n j : Nat} {edit : Nat → α → α} {x : α} (h : slots.EditedTo n edit t)
    (hj : slots.placements[j]? = some (b, x)) : t.occupant b = some (editFirst n edit j x) := by
  rw [← mem_placements, h.placements]
  apply List.mem_of_getElem?
  rw [getElem?_revise, hj]
  rfl

theorem EditedTo.vacant {n : Nat} {edit : Nat → α → α} (h : slots.EditedTo n edit t) (hb : slots.occupant b = none) :
    t.occupant b = none := by
  by_contra hsome
  obtain ⟨y, hy⟩ := Option.ne_none_iff_exists'.mp hsome
  rw [← mem_placements, h.placements] at hy
  obtain ⟨j, hj⟩ := List.mem_iff_getElem?.mp hy
  rw [getElem?_revise, Option.map_eq_some_iff] at hj
  obtain ⟨⟨b', x⟩, hplaced, hpair⟩ := hj
  obtain ⟨rfl, -⟩ := Prod.mk.inj hpair
  cases hb.symm.trans (mem_placements.mp (List.mem_of_getElem? hplaced))

theorem EditedTo.frames {n : Nat} {edit : Nat → α → α} (h : slots.EditedTo n edit t) :
    slots.Frames (· ∈ (slots.placements.take n).map Prod.fst) t := by
  refine ⟨h.size, fun b => ?_, fun b hb => ?_⟩
  · cases hx : slots.occupant b with
    | none => rw [h.vacant hx]
    | some x =>
      obtain ⟨j, hj⟩ := List.mem_iff_getElem?.mp (mem_placements.mpr hx)
      rw [h.occupant_of_placed hj, Option.isSome_some, Option.isSome_some]
  · cases hx : slots.occupant b with
    | none => exact h.vacant hx
    | some x =>
      obtain ⟨j, hj⟩ := List.mem_iff_getElem?.mp (mem_placements.mpr hx)
      have hlater : ¬ j < n := by
        intro hlt
        apply hb
        apply List.mem_map_of_mem (f := Prod.fst) (a := (b, x))
        apply List.mem_of_getElem?
        rw [List.getElem?_take_of_lt hlt, hj]
      rw [h.occupant_of_placed hj, editFirst, if_neg hlater]

end Slots

namespace FixedSet

variable [BEq K] {addressed : Nat → Prop} {s : FixedSet K}

theorem Unmoved.refl (addressed : Nat → Prop) (s : FixedSet K) : s.Unmoved addressed s :=
  ⟨rfl, rfl, .refl addressed _, fun _ => .inl rfl, fun _ => rfl⟩

/-- Exchanging a member for a key that equals it does not change what any search finds. -/
theorem Unmoved.assign {b : Nat} {x key : K} (hx : s.slots.occupant b = some x) (hkey : (x == key) = true)
    (haddressed : addressed b) : s.Unmoved addressed { s with slots := s.slots.assign b (some key) } := by
  have hframes : s.slots.Frames addressed (s.slots.assign b (some key)) := .assign hx haddressed key
  have honly : s.slots.Frames (fun i => i = b) (s.slots.assign b (some key)) := .assign hx (by rfl) key
  have hother : ∀ i, i ≠ b → (s.slots.assign b (some key)).get i = s.slots.get i := fun i => honly.get
  have hexchanged : (s.slots.assign b (some key)).get b = .ok key := by
    apply Slots.get_of_occupant
    rw [Slots.occupant_assign (Slots.lt_size_of_occupant hx), Function.update_self]
  refine ⟨rfl, rfl, hframes, fun i => ?_, fun probed => ?_⟩
  · by_cases hi : i = b
    · subst hi
      have hsame : FixedSet.checkIndex { s with slots := s.slots.assign i (some key) } i = s.checkIndex i := rfl
      rw [FixedSet.memberAt, FixedSet.memberAt, hsame, hexchanged, Slots.get_of_occupant hx]
      cases s.checkIndex i with
      | error fault => exact .inl rfl
      | ok _ => exact .inr ⟨haddressed, x, key, rfl, rfl, hkey⟩
    · rw [FixedSet.memberAt, FixedSet.memberAt, hother i hi]
      exact .inl rfl
  -- The new member equals a probed key if and only if the old one did, so that the search is answered alike.
  · have hmatch : (fun i => (· == probed) <$> (s.slots.assign b (some key)).get i) =
        fun i => (· == probed) <$> s.slots.get i := by
      funext i
      by_cases hi : i = b
      · subst hi
        rw [hexchanged, Slots.get_of_occupant hx]
        exact congrArg Except.ok (BEq.congr_left (BEq.symm hkey))
      · rw [hother i hi]
    change s.table.find _ (fun i => (· == probed) <$> (s.slots.assign b (some key)).get i) = _
    rw [hmatch]
    rfl

end FixedSet

namespace FixedDict

variable {addressed : Nat → Prop} {d : FixedDict K V}

/-- Where the keys are left alone, it is enough to look at the values. -/
theorem Unmoved.of_frames {values : Slots V} (h : d.values.Frames addressed values) :
    d.Unmoved addressed { d with values } := by
  refine ⟨rfl, h, fun i => ?_⟩
  cases hv : d.values.occupant i with
  | none =>
    have hw : values.occupant i = none := by
      rw [← Option.isNone_iff_eq_none, ← Option.isSome_eq_false_iff, h.occupied, hv, Option.isSome_none]
    rw [FixedDict.entryAt, FixedDict.entryAt, entryIn, entryIn, Slots.get_congr h.size (hw.trans hv.symm)]
    exact .inl rfl
  | some v =>
    obtain ⟨w, hw⟩ : ∃ w, values.occupant i = some w := by
      rw [← Option.isSome_iff_exists, h.occupied, hv, Option.isSome_some]
    by_cases hi : addressed i
    · rw [FixedDict.entryAt, FixedDict.entryAt, entryIn, entryIn, Slots.get_of_occupant hv, Slots.get_of_occupant hw]
      cases d.keys.checkIndex i with
      | error fault => exact .inl rfl
      | ok _ =>
        cases d.keys.slots.get i with
        | error fault => exact .inl rfl
        | ok key => exact .inr ⟨hi, key, v, w, rfl, rfl⟩
    · rw [FixedDict.entryAt, FixedDict.entryAt, entryIn, entryIn, h.get hi]
      exact .inl rfl

theorem Unmoved.refl (addressed : Nat → Prop) (d : FixedDict K V) : d.Unmoved addressed d :=
  .of_frames (.refl addressed d.values)

theorem Unmoved.assignValue {b : Nat} {x : K × V} (hx : Holds d b x) (haddressed : addressed b) (value : V) :
    d.Unmoved addressed (d.assignValue b (some value)) :=
  .of_frames (.assign hx.2 haddressed value)

end FixedDict

/-! ### Calls that add and remove nothing -/

section Calls

variable [BEq K]

/-- The key is a member if and only if it would be one after the call. -/
def MemberCall.Idle (call : MemberCall K) (s : FixedSet K) : Prop :=
  s.contains call.key = .ok call.leaves

def MemberCall.Addresses (s : FixedSet K) : MemberCall K → Nat → Prop
  | .update key, b => s.indexOf? key = .ok (some b)
  | .insert _, _ | .remove _, _ => False

/-- There is a value under the key if and only if there would be one after the call. -/
def EntryCall.Idle (call : EntryCall K V ε R) (d : FixedDict K V) : Prop :=
  ∃ held, d.get? call.key = .ok held ∧ (call.leaves held).isSome = held.isSome

def EntryCall.Addresses (d : FixedDict K V) : EntryCall K V ε R → Nat → Prop
  | .update key _, b | .edit key _, b => d.indexOf? key = .ok (some b)
  | .insert .., _ | .memoize .., _ | .tryMemoize .., _ | .remove _, _ | .removeEntry _, _ => False

namespace AnyDict.Call

/-- Values that are changed where they are are never added or removed. -/
def Idle : Call K V ε R → FixedDict K V → Prop
  | .entry call, d => call.Idle d
  | .replace .., _ | .replaceAt .., _ | .editValues .., _ | .editEntries .., _ => True

def Addresses (d : FixedDict K V) : Call K V ε R → Nat → Prop
  | .entry call, b => call.Addresses d b
  | .replace key _, b => d.indexOf? key = .ok (some b)
  | .replaceAt index _, b => b = index
  | .editValues n _, b | .editEntries n _, b => b ∈ (d.values.placements.take n).map Prod.fst

end AnyDict.Call

/-- The dictionary is the same but for its storage, in which nothing has moved. -/
def AnyDict.Unmoved (addressed : Nat → Prop) (d e : AnyDict K V) : Prop :=
  ∃ storage, e = d.withStorage storage ∧ d.storage.Unmoved addressed storage

def AnySet.Unmoved (addressed : Nat → Prop) (s t : AnySet K) : Prop :=
  ∃ storage, t = s.withStorage storage ∧ s.storage.Unmoved addressed storage

end Calls

variable [BEq K] {hasher : Hasher K} {hash : UInt64} {b : Nat}

/-! ### Sets -/

namespace AnySet

variable {s : AnySet K}

theorem unmoved_refl (addressed : Nat → Prop) (s : AnySet K) : s.Unmoved addressed s :=
  ⟨s.storage, by cases s <;> rfl, .refl addressed s.storage⟩

/-- A call that finds its key, and does not remove it, or that does not find the key it is to remove. -/
theorem Reachable.after_unmoved (hs : s.Reachable hasher) {call : MemberCall K} (hidle : call.Idle s.storage) :
    s.Unmoved (call.Addresses s.storage) (s.after call) := by
  obtain ⟨c, m, h⟩ := hs.storage.steady
  obtain ⟨b, x, hash, hsearch, hx, hkey⟩ | ⟨hsearch, -⟩ := (FixedSet.steady hasher).search h call.key
  · rw [MemberCall.Idle, FixedSet.contains_of_search hsearch, Except.ok.injEq, Option.isSome_some] at hidle
    cases call with
    | insert key =>
      rw [show s.after (.insert key) = s from after_insert_of_hit hsearch]
      exact unmoved_refl _ s
    | update key =>
      refine ⟨_, after_update_of_hit hsearch hx, .assign hx hkey ?_⟩
      change (do return (← s.storage.search key).bucket) = _
      rw [show s.storage.search key = _ from hsearch]
      rfl
    | remove key => cases hidle
  · rw [MemberCall.Idle, FixedSet.contains_of_search hsearch, Except.ok.injEq, Option.isSome_none] at hidle
    cases call with
    | insert key => cases hidle
    | update key => cases hidle
    | remove key =>
      rw [show s.after (.remove key) = s from after_remove_of_miss hsearch]
      exact unmoved_refl _ s

end AnySet

/-! ### Dictionaries -/

namespace FixedDict

variable {d : FixedDict K V} {c : Nat} {m : List (K × V)} {key : K}

theorem indexOf?_of_search (hsearch : d.keys.search key = .ok ⟨some b, hash⟩) : d.indexOf? key = .ok (some b) := by
  change (do return (← d.keys.search key).bucket) = _
  rw [hsearch]
  rfl

/-- What is stored where an entry call found its key is what was there, unless the call addresses the bucket. -/
theorem Unmoved.entry {x : K × V} {call : EntryCall K V ε R} {value : V}
    (hsearch : d.keys.search call.key = .ok ⟨some b, hash⟩) (hx : d.Holds b x)
    (hleaves : call.leaves (some x.2) = some value) :
    d.Unmoved (call.Addresses d) (d.assignValue b (some value)) := by
  have hindex := indexOf?_of_search hsearch
  cases call with
  | update | edit => exact .assignValue hx hindex _
  | insert | memoize | tryMemoize =>
    cases hleaves
    rw [assignValue_self hx]
    exact .refl _ d
  | remove | removeEntry => cases hleaves

theorem Steady.replace_unmoved (h : Steady hasher c d m) (key : K) (value : V) :
    d.Unmoved (fun b => d.indexOf? key = .ok (some b)) ((FixedDict.replace key value).runOn d).2 := by
  obtain ⟨b, x, hash, hsearch, hx, -⟩ | ⟨hsearch, -⟩ := (steady hasher).search h key
  · simp only [FixedDict.replace, runOn_get_bind, runOn_ok_bind, hsearch, runOn_bind_ok (runOn_replaceIn hx value)]
    exact .assignValue hx (indexOf?_of_search hsearch) value
  · simp only [FixedDict.replace, runOn_get_bind, runOn_ok_bind, hsearch]
    exact .refl _ d

theorem Steady.replaceAt_unmoved (h : Steady hasher c d m) (index : Nat) (value : V) :
    d.Unmoved (fun b => b = index) ((FixedDict.replaceAt index value).runOn d).2 := by
  by_cases hoccupied : d.table.isOccupied index = true
  · obtain ⟨x, hx⟩ := Upkeep.exists_holds (U := steady hasher) h hoccupied
    have hcheck : d.keys.checkIndex index = .ok () := if_pos hoccupied
    have hassigned : d.Unmoved (fun b => b = index) (d.assignValue index (some value)) := .assignValue hx (by rfl) value
    rw [FixedDict.replaceAt, runOn_get_bind, hcheck, runOn_ok_bind, runOn_replaceIn hx]
    exact hassigned
  · have hcheck : d.keys.checkIndex index = .error .indexOutOfBounds := if_neg hoccupied
    rw [FixedDict.replaceAt, runOn_get_bind, hcheck, runOn_error_bind]
    exact .refl _ d

/-- A traversal changes the values that it passes. -/
theorem Steady.edits_unmoved (h : Steady hasher c d m) (n : Nat) (edit : Nat → V → V) :
    d.Unmoved (fun b => b ∈ (d.values.placements.take n).map Prod.fst) ((editValues n edit).runOn d).2 ∧
    d.Unmoved (fun b => b ∈ (d.values.placements.take n).map Prod.fst) ((editEntries n edit).runOn d).2 := by
  obtain ⟨s, rfl, hstep⟩ := (steady hasher).entries h
  obtain ⟨values, hedited, hrun⟩ := runOn_editValues hasher hstep n edit
  obtain ⟨values', hedited', hrun'⟩ := runOn_editEntries hasher hstep n edit
  rw [hrun, hrun']
  exact ⟨.of_frames hedited.frames, .of_frames hedited'.frames⟩

end FixedDict

namespace AnyDict

variable {d : AnyDict K V} {call : EntryCall K V ε R}

omit [BEq K] in
theorem unmoved_refl (addressed : Nat → Prop) (d : AnyDict K V) : d.Unmoved addressed d :=
  ⟨d.storage, by cases d <;> rfl, .refl addressed d.storage⟩

theorem Reachable.after_entry_unmoved (hd : d.Reachable hasher) (hidle : call.Idle d.storage) :
    d.Unmoved (call.Addresses d.storage) (d.after (.entry call)) := by
  obtain ⟨held, hget, hsome⟩ := hidle
  obtain ⟨c, m, h⟩ := hd.storage.keptBy (FixedDict.steady hasher)
  obtain ⟨b, x, hash, hsearch, hx, -⟩ | ⟨hsearch, -⟩ := (FixedDict.steady hasher).search h call.key
  · obtain rfl : held = some x.2 := Except.ok.inj (hget.symm.trans (FixedDict.get?_of_search_some hsearch hx))
    obtain ⟨value, hleaves⟩ := Option.isSome_iff_exists.mp hsome
    rw [hd.after_entry_of_hit hsearch hx, hleaves]
    exact ⟨_, rfl, .entry hsearch hx hleaves⟩
  · obtain rfl : held = none := Except.ok.inj (hget.symm.trans (FixedDict.get?_of_search_none hsearch))
    rw [hd.after_entry_of_miss hsearch, Option.isNone_iff_eq_none.mp (Option.isSome_eq_false_iff.mp hsome)]
    exact unmoved_refl _ d

/-- A call that looks for no room leaves a growing dictionary with what it leaves of the storage. -/
theorem after_eq_withStorage {call : Call K V ε R} (hplain : ∀ entry, call ≠ .entry entry) :
    d.after call = d.withStorage ((FixedDict.carryOut call.toFixed).runOn d.storage).2 := by
  cases d with
  | fixed d => rfl
  | growing g =>
    cases call with
    | entry entry => exact absurd rfl (hplain entry)
    | replace | replaceAt | editValues | editEntries =>
      rw [after, Call.toGrowing, Call.toFixed, GrowDict.carryOut, FixedDict.carryOut, runOn_map, runOn_map]
      rfl

/-- A call that neither adds nor removes a key moves nothing. -/
theorem Reachable.after_unmoved (hd : d.Reachable hasher) {call : Call K V ε R} (hidle : call.Idle d.storage) :
    d.Unmoved (call.Addresses d.storage) (d.after call) := by
  obtain ⟨c, m, h⟩ := hd.storage.keptBy (FixedDict.steady hasher)
  cases call with
  | entry call => exact hd.after_entry_unmoved hidle
  | replace key value =>
    refine ⟨_, after_eq_withStorage (by rintro _ ⟨⟩), ?_⟩
    rw [Call.toFixed, FixedDict.carryOut, runOn_map]
    exact FixedDict.Steady.replace_unmoved h key value
  | replaceAt index value =>
    refine ⟨_, after_eq_withStorage (by rintro _ ⟨⟩), ?_⟩
    rw [Call.toFixed, FixedDict.carryOut, runOn_map]
    exact FixedDict.Steady.replaceAt_unmoved h index value
  | editValues n edit =>
    refine ⟨_, after_eq_withStorage (by rintro _ ⟨⟩), ?_⟩
    rw [Call.toFixed, FixedDict.carryOut, runOn_map]
    exact (FixedDict.Steady.edits_unmoved h n edit).1
  | editEntries n edit =>
    refine ⟨_, after_eq_withStorage (by rintro _ ⟨⟩), ?_⟩
    rw [Call.toFixed, FixedDict.carryOut, runOn_map]
    exact (FixedDict.Steady.edits_unmoved h n edit).2

end AnyDict

/-! ### Insertions that hand a key back -/

theorem FixedSet.tryInsert_unmoved {s : FixedSet K} {key : K} (hs : AnySet.Reachable hasher (.fixed s))
    (hidle : s.contains key = .ok true ∨ s.isFull = true) : ((FixedSet.tryInsert key).runOn s).2 = s := by
  obtain ⟨c, m, h⟩ := hs.steady
  obtain ⟨b, x, hash, hsearch, -, -⟩ | ⟨hsearch, -⟩ := (steady hasher).search h key
  · simp only [FixedSet.tryInsert, runOn_get_bind, runOn_ok_bind, hsearch]
    rfl
  · rw [contains_of_search hsearch, Except.ok.injEq, Option.isSome_none, or_iff_right Bool.false_ne_true] at hidle
    simp only [FixedSet.tryInsert, runOn_get_bind, runOn_ok_bind, hsearch, Option.isSome_none, Bool.false_eq_true,
      if_false, hidle, if_true]
    rfl

theorem FixedDict.tryInsert_unmoved {d : FixedDict K V} {key : K} (hd : AnyDict.Reachable hasher (.fixed d))
    (hidle : d.contains key = .ok true ∨ d.isFull = true) (value : V) :
    ((FixedDict.tryInsert key value).runOn d).2 = d := by
  obtain ⟨c, m, h⟩ := hd.keptBy (steady hasher)
  obtain ⟨b, x, hash, hsearch, -, -⟩ | ⟨hsearch, -⟩ := (steady hasher).search h key
  · simp only [FixedDict.tryInsert, runOn_get_bind, runOn_ok_bind, hsearch]
    rfl
  · rw [contains, FixedSet.contains_of_search hsearch, Except.ok.injEq, Option.isSome_none,
      or_iff_right Bool.false_ne_true] at hidle
    simp only [FixedDict.tryInsert, runOn_get_bind, runOn_ok_bind, hsearch, Option.isSome_none, Bool.false_eq_true,
      if_false, hidle, if_true]
    rfl

/-- Whatever a container has been through, a call that neither adds nor removes a key moves nothing: table, seeds and
journal stay as they are, every search ends where it did, and every index addresses the key that it did. -/
theorem idle_calls_move_nothing (hasher : Hasher K) :
    (∀ s : AnySet K, s.Reachable hasher → ∀ call : MemberCall K, call.Idle s.storage →
      s.Unmoved (call.Addresses s.storage) (s.after call)) ∧
    (∀ d : AnyDict K V, d.Reachable hasher → ∀ call : AnyDict.Call K V ε R, call.Idle d.storage →
      d.Unmoved (call.Addresses d.storage) (d.after call)) ∧
    (∀ s : FixedSet K, AnySet.Reachable hasher (.fixed s) → ∀ key, s.contains key = .ok true ∨ s.isFull = true →
      ((FixedSet.tryInsert key).runOn s).2 = s) ∧
    ∀ d : FixedDict K V, AnyDict.Reachable hasher (.fixed d) → ∀ key, d.contains key = .ok true ∨ d.isFull = true →
      ∀ value, ((FixedDict.tryInsert key value).runOn d).2 = d :=
  ⟨fun _ hs _ => hs.after_unmoved, fun _ hd _ => hd.after_unmoved, fun _ hs _ => FixedSet.tryInsert_unmoved hs,
    fun _ hd _ => FixedDict.tryInsert_unmoved hd⟩

/-- A full dictionary does not grow for an edit, although the caller's function gives up, and a set with one member in
probed storage does not shrink when it is asked to remove another key. -/
theorem idle_calls_move_nothing_when_full_or_sparse : ∃ (g : GrowDict Nat Nat) (s : GrowSet Nat),
    AnyDict.Reachable (fun _ key => if key < 8 then 5 else key.toUInt64) (.growing g) ∧
    AnySet.Reachable (fun _ key => key.toUInt64) (.growing s) ∧ g.size = g.capacity ∧ s.size = 1 ∧ s.capacity = 28 ∧
    AnyDict.Unmoved (fun b => g.storage.indexOf? 3 = .ok (some b)) (.growing g)
      (AnyDict.after (.entry (.edit 3 fun _ => (some 99, .error "stop") : EntryCall Nat Nat Empty Empty))
        (.growing g)) ∧
    AnySet.Unmoved (fun _ => False) (.growing s) (AnySet.after (.remove 6) (.growing s)) := by
  have hnewDict : AnyDict.Reachable (V := Nat) (fun _ (key : Nat) => if key < 8 then 5 else key.toUInt64)
      (.growing ⟨_, .constant 0, []⟩) := .growing (rfl : GrowDict.vacant 0 _ _ = .ok _)
  have hfilled := hnewDict.callGrowing
    (.extend ((List.range 28).map fun key => (key, 10 * key)) 28 : GrowDict.Call Nat Nat Empty Empty)
  have hnewSet : AnySet.Reachable (fun _ (key : Nat) => key.toUInt64) (.growing ⟨_, .constant 0, []⟩) :=
    .growing (rfl : GrowSet.vacant 0 _ _ = .ok _)
  have hone := (hnewSet.callGrowing (.reserve 20 : GrowSet.Call Nat Empty)).callGrowing
    (.member (.insert 5) : GrowSet.Call Nat Empty)
  obtain ⟨g, hg, hfull, hget⟩ : ∃ g : GrowDict Nat Nat,
      AnyDict.Reachable (fun _ key => if key < 8 then 5 else key.toUInt64) (.growing g) ∧ g.size = g.capacity ∧
      g.storage.get? 3 = .ok (some 30) := ⟨_, hfilled, by decide +kernel, by decide +kernel⟩
  obtain ⟨s, hs, hsize, hcapacity, habsent⟩ : ∃ s : GrowSet Nat,
      AnySet.Reachable (fun _ key => key.toUInt64) (.growing s) ∧ s.size = 1 ∧ s.capacity = 28 ∧
      s.storage.contains 6 = .ok false :=
    ⟨_, hone, by decide +kernel, by decide +kernel, by decide +kernel⟩
  refine ⟨g, s, hg, hs, hfull, hsize, hcapacity, ?_, ?_⟩
  · exact (idle_calls_move_nothing _).2.1 _ hg
      (.entry (.edit 3 fun _ => (some 99, .error "stop") : EntryCall Nat Nat Empty Empty)) ⟨some 30, hget, rfl⟩
  · exact (idle_calls_move_nothing (V := Empty) (ε := Empty) (R := Empty) _).1 _ hs (.remove 6) habsent

end RobinHood
