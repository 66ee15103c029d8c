import RobinHood.FixedDict.Values
import RobinHood.Proofs.FixedDict

/-!
# Walking the value slots

A traversal that changes values follows the value slots alone. As these hold values where the keys' slots hold keys,
it comes by the entries in the order of the keys, and what it has passed is changed in place.
-/

namespace RobinHood

variable {α K V : Type}

namespace Slots

variable {slots : Slots α} {b : Nat} {x y : α}

theorem firstHeldFrom_first (slots : Slots α) (start : Nat) :
    FirstFrom (fun i => (slots.occupant i).isSome) start (slots.firstHeldFrom start) := by
  fun_induction slots.firstHeldFrom start with
  | case1 start hlt hsome =>
    have hheld : (slots.occupant start).isSome = true := by rwa [occupant, Array.getElem?_eq_getElem hlt]
    exact ⟨le_refl _, hheld, fun i hi hlt => by omega⟩
  | case2 start hlt hnone ih =>
    have hvacant : ∀ i, start ≤ i → i < start + 1 → (slots.occupant i).isSome = false := by
      intro i hi hlt'
      obtain rfl : i = start := by omega
      rw [occupant, Array.getElem?_eq_getElem hlt]
      exact Bool.not_eq_true _ ▸ hnone
    cases hfound : slots.firstHeldFrom (start + 1) with
    | none =>
      rw [hfound] at ih
      intro i hi
      by_cases hlt' : i < start + 1
      · exact hvacant i hi hlt'
      · exact ih i (by omega)
    | some b =>
      rw [hfound] at ih
      obtain ⟨hle, hheld, hmin⟩ := ih
      refine ⟨by omega, hheld, fun i hi hib => ?_⟩
      by_cases hlt' : i < start + 1
      · exact hvacant i hi hlt'
      · exact hmin i (by omega) hib
  | case3 start hend =>
    intro i hi
    rw [Option.isSome_eq_false_iff, Option.isNone_iff_eq_none, occupant, Array.getElem?_eq_none (by omega)]
    rfl

theorem placements_map {β : Type} (f : α → β) (slots : Slots α) :
    (slots.map f).placements = slots.placements.map fun visit => (visit.1, f visit.2) := by
  rw [placements, size_map, show (slots.map f).occupant = fun i => (slots.occupant i).map f from
    funext fun i => occupant_map f slots i]
  exact visitsFrom_map (fun _ => f) _ _ _

theorem ext_placements {other : Slots α} (hsize : slots.size = other.size) (h : slots.placements = other.placements) :
    slots = other := by
  apply ext_occupant hsize
  intro i
  ext x
  rw [← mem_placements, h, mem_placements]

theorem placements_inj {i j : Nat} (hi : slots.placements[i]? = some (b, x)) (hj : slots.placements[j]? = some (b, y)) :
    i = j := by
  obtain ⟨hlt, hget⟩ := List.getElem?_eq_some_iff.mp hi
  obtain ⟨hlt', hget'⟩ := List.getElem?_eq_some_iff.mp hj
  have hordered := List.pairwise_iff_getElem.mp slots.pairwise_placements
  obtain hbefore | hsame | hbehind := Nat.lt_trichotomy i j
  · have hless := hordered i j hlt hlt' hbefore
    rw [hget, hget'] at hless
    exact absurd hless (Nat.lt_irrefl b)
  · exact hsame
  · have hless := hordered j i hlt' hlt hbehind
    rw [hget, hget'] at hless
    exact absurd hless (Nat.lt_irrefl b)

theorem placements_assign (hx : slots.occupant b = some x) (y : α) :
    (slots.assign b (some y)).placements =
      slots.placements.map fun visit => (visit.1, if visit.1 = b then y else visit.2) := by
  have hoccupant : (slots.assign b (some y)).occupant = fun i =>
      (slots.occupant i).map fun z => if i = b then y else z := by
    funext i
    rw [occupant_assign (lt_size_of_occupant hx)]
    by_cases hi : i = b
    · rw [hi, Function.update_self, hx, Option.map_some, if_pos rfl]
    · simp only [Function.update_of_ne hi, if_neg hi, Option.map_id']
  rw [placements, size_assign, hoccupant]
  exact visitsFrom_map (fun i z => if i = b then y else z) _ _ _

end Slots

/-! ### Changed values -/

def revise (edit : Nat → V → V) (visits : List (Nat × V)) : List (Nat × V) :=
  visits.mapIdx fun j visit => (visit.1, edit j visit.2)

def reviseEntries (edit : Nat → V → V) (visits : List (Nat × (K × V))) : List (Nat × (K × V)) :=
  visits.mapIdx fun j visit => (visit.1, (visit.2.1, edit j visit.2.2))

/-- Changes only the values before the `n`-th. -/
def editFirst (n : Nat) (edit : Nat → V → V) (j : Nat) (value : V) : V :=
  if j < n then edit j value else value

section Revise

variable {edit : Nat → V → V}

theorem getElem?_revise (visits : List (Nat × V)) (j : Nat) :
    (revise edit visits)[j]? = visits[j]?.map fun visit => (visit.1, edit j visit.2) :=
  List.getElem?_mapIdx

theorem getElem?_reviseEntries (visits : List (Nat × (K × V))) (j : Nat) :
    (reviseEntries edit visits)[j]? = visits[j]?.map fun visit => (visit.1, (visit.2.1, edit j visit.2.2)) :=
  List.getElem?_mapIdx

theorem length_revise (edit : Nat → V → V) (visits : List (Nat × V)) : (revise edit visits).length = visits.length :=
  List.length_mapIdx

theorem length_reviseEntries (edit : Nat → V → V) (visits : List (Nat × (K × V))) :
    (reviseEntries edit visits).length = visits.length :=
  List.length_mapIdx

theorem revise_editFirst_zero (visits : List (Nat × V)) : revise (editFirst 0 edit) visits = visits := by
  apply List.ext_getElem?
  intro j
  rw [getElem?_revise]
  exact Option.map_id'

theorem revise_editFirst_min (n : Nat) (visits : List (Nat × V)) :
    revise (editFirst (min n visits.length) edit) visits = revise (editFirst n edit) visits := by
  apply List.ext_getElem?
  intro j
  rw [getElem?_revise, getElem?_revise]
  cases hj : visits[j]? with
  | none => rfl
  | some visit =>
    have hlt := (List.getElem?_eq_some_iff.mp hj).1
    have hbefore : j < min n visits.length ↔ j < n := by omega
    simp only [Option.map_some, editFirst, hbefore]

end Revise

/-! ### The cursors -/

namespace ValueCursor

def bucket? (cursor : ValueCursor V) : Option Nat :=
  cursor.slots.firstHeldFrom cursor.position

/-- The cursor has changed the first `k` values, and nothing else. -/
structure At (slots : Slots V) (edit : Nat → V → V) (k : Nat) (cursor : ValueCursor V) : Prop where
  edits : cursor.edit = edit
  visited : cursor.visited = k
  remaining : cursor.remaining = slots.placements.length - k
  size : cursor.slots.size = slots.size
  placements : cursor.slots.placements = revise (editFirst k edit) slots.placements
  ahead : visitsFrom cursor.slots.occupant cursor.slots.size cursor.position = cursor.slots.placements.drop k

variable {slots : Slots V} {edit : Nat → V → V} {k : Nat} {cursor : ValueCursor V}

theorem At.getElem? (h : At slots edit k cursor) (j : Nat) :
    cursor.slots.placements[j]? = slots.placements[j]?.map fun visit => (visit.1, editFirst k edit j visit.2) := by
  rw [h.placements, getElem?_revise]

/-- What the cursor finds next is what is to be changed next. -/
theorem At.found (h : At slots edit k cursor) :
    (cursor.bucket? = none ∧ slots.placements[k]? = none) ∨
    ∃ b v, cursor.bucket? = some b ∧ slots.placements[k]? = some (b, v) ∧ cursor.slots.occupant b = some v ∧
      visitsFrom cursor.slots.occupant cursor.slots.size (b + 1) = cursor.slots.placements.drop (k + 1) := by
  have hbound : ∀ i x, cursor.slots.occupant i = some x → i < cursor.slots.size :=
    fun _ _ => Slots.lt_size_of_occupant
  have hkth := h.getElem? k
  obtain ⟨hnone, hlist⟩ | ⟨b, x, hsome, -, hx, hlist⟩ :=
    visitsFrom_of_first hbound (cursor.slots.firstHeldFrom_first cursor.position)
  · rw [h.ahead, List.drop_eq_nil_iff] at hlist
    rw [List.getElem?_eq_none hlist, eq_comm, Option.map_eq_none_iff] at hkth
    exact .inl ⟨hnone, hkth⟩
  · rw [h.ahead] at hlist
    have hlt : k < cursor.slots.placements.length := by
      by_contra hle
      rw [List.drop_of_length_le (Nat.le_of_not_lt hle)] at hlist
      cases hlist
    rw [List.drop_eq_getElem_cons hlt] at hlist
    obtain ⟨hget, htail⟩ := List.cons.inj hlist
    rw [List.getElem?_eq_getElem hlt, hget, eq_comm, Option.map_eq_some_iff] at hkth
    obtain ⟨⟨b', v⟩, hvisit, hpair⟩ := hkth
    simp only [editFirst, if_neg (Nat.lt_irrefl k), Prod.mk.injEq] at hpair
    obtain ⟨rfl, rfl⟩ := hpair
    exact .inr ⟨b', v, hsome, hvisit, hx, htail.symm⟩

theorem At.bucket_eq (h : At slots edit k cursor) : cursor.bucket? = slots.placements[k]?.map Prod.fst := by
  obtain ⟨hbucket, hnone⟩ | ⟨b, v, hbucket, hvisit, -⟩ := h.found
  · rw [hbucket, hnone]
    rfl
  · rw [hbucket, hvisit]
    rfl

theorem At.stop (h : At slots edit k cursor) (hend : slots.placements[k]? = none) : cursor.next? = .ok none := by
  have hremaining : cursor.remaining = 0 := by
    rw [h.remaining]
    exact Nat.sub_eq_zero_of_le (List.getElem?_eq_none_iff.mp hend)
  rw [next?, if_pos hremaining]
  rfl

/-- One step changes the next value, and leaves the cursor behind it. -/
theorem At.step (h : At slots edit k cursor) {b : Nat} {v : V} (hvisit : slots.placements[k]? = some (b, v)) :
    ∃ t, cursor.next? = .ok (some (edit k v, t)) ∧ At slots edit (k + 1) t := by
  obtain ⟨-, hnone⟩ | ⟨b', v', hbucket, hvisit', hv, hahead⟩ := h.found
  · cases hnone.symm.trans hvisit
  obtain ⟨rfl, rfl⟩ := Prod.mk.inj (Option.some.inj (hvisit'.symm.trans hvisit))
  have hlt : k < slots.placements.length := (List.getElem?_eq_some_iff.mp hvisit).1
  have hremaining := h.remaining
  rw [bucket?] at hbucket
  refine ⟨⟨cursor.slots.assign b' (some (edit k v')), cursor.edit, b' + 1, cursor.visited + 1, cursor.remaining - 1⟩,
    ?_, h.edits, by rw [h.visited], by simp only; omega, (Slots.size_assign _ _ _).trans h.size, ?_, ?_⟩
  · rw [next?, if_neg (by omega)]
    simp only [hbucket, Slots.get_of_occupant hv, h.edits, h.visited]
    rfl
  · refine (Slots.placements_assign hv _).trans (List.ext_getElem? fun j => ?_)
    rw [List.getElem?_map, h.getElem?, getElem?_revise, Option.map_map]
    cases hj : slots.placements[j]? with
    | none => rfl
    | some visit =>
      obtain ⟨b, w⟩ := visit
      refine congrArg some (Prod.ext rfl ?_)
      by_cases hjk : j = k
      · subst hjk
        obtain ⟨rfl, rfl⟩ := Prod.mk.inj (Option.some.inj (hj.symm.trans hvisit))
        simp [editFirst]
      · have hother : b ≠ b' := by
          rintro rfl
          exact hjk (Slots.placements_inj hj hvisit)
        have hbefore : j < k + 1 ↔ j < k := by omega
        simp [editFirst, hother, hbefore]
  · have hbehind : ∀ i, b' + 1 ≤ i →
        (cursor.slots.assign b' (some (edit k v'))).occupant i = cursor.slots.occupant i := by
      intro i hi
      rw [Slots.occupant_assign (Slots.lt_size_of_occupant hv), Function.update_of_ne (by omega)]
    rw [h.edits, h.visited]
    simp only
    rw [Slots.size_assign, visitsFrom_congr hbehind, Slots.placements_assign hv, ← List.map_drop, ← hahead]
    refine ((List.map_congr_left fun visit hvisit => ?_).trans (List.map_id _)).symm
    have hle := (mem_visitsFrom.mp hvisit).1
    exact Prod.ext rfl (if_neg (by omega))

/-- What the cursor visits: every value, changed. -/
theorem At.exists_step (h : At slots edit k cursor) {visit : Nat × V}
    (hvisit : (revise edit slots.placements)[k]? = some visit) :
    ∃ t, cursor.next? = .ok (some (visit.2, t)) ∧ At slots edit (k + 1) t := by
  rw [getElem?_revise, Option.map_eq_some_iff] at hvisit
  obtain ⟨⟨b, v⟩, hplaced, rfl⟩ := hvisit
  exact h.step hplaced

theorem At.exists_stop (h : At slots edit k cursor) (hend : (revise edit slots.placements)[k]? = none) :
    cursor.next? = .ok none := by
  rw [getElem?_revise, Option.map_eq_none_iff] at hend
  exact h.stop hend

theorem At.traverses (h : At slots edit 0 cursor) :
    Traverses next? bucket? ValueCursor.remaining cursor (revise edit slots.placements) := by
  apply Traverses.of_at (fun _ _ _ hat => hat.exists_step) (fun _ _ hat => hat.exists_stop) h
  · intro k c hat
    rw [hat.bucket_eq, getElem?_revise, Option.map_map]
    rfl
  · intro k c hat
    rw [hat.remaining, length_revise]

theorem At.takeUpTo (h : At slots edit 0 cursor) (n : Nat) :
    ∃ behind, takeUpTo next? n cursor = .ok (((revise edit slots.placements).take n).map Prod.snd, behind) ∧
      At slots edit (min n slots.placements.length) behind := by
  rw [← length_revise edit slots.placements]
  exact exists_takeUpTo_visits (fun _ _ _ hat => hat.exists_step) (fun _ _ hat => hat.exists_stop) h n

end ValueCursor

namespace EntryCursor

/-- The cursor has passed the first `k` entries, of which the values were changed. -/
structure At (visits : List (Nat × (K × V))) (slots : Slots V) (edit : Nat → V → V) (k : Nat)
    (cursor : EntryCursor K V) : Prop where
  keys : Visits Cursor.next? Cursor.bucket? Cursor.remaining cursor.keys
    ((visits.map fun visit => (visit.1, visit.2.1)).drop k)
  values : ValueCursor.At slots edit k cursor.values

variable {visits : List (Nat × (K × V))} {slots : Slots V} {edit : Nat → V → V} {k : Nat} {cursor : EntryCursor K V}

theorem At.stop (h : At visits slots edit k cursor) (hend : (reviseEntries edit visits)[k]? = none) :
    cursor.next? = .ok none := by
  rw [getElem?_reviseEntries, Option.map_eq_none_iff] at hend
  rw [next?, h.keys.of_drop_end (by rw [List.getElem?_map, hend]; rfl)]
  rfl

theorem At.step (h : At visits slots edit k cursor)
    (hvalues : slots.placements = visits.map fun visit => (visit.1, visit.2.2)) {visit : Nat × (K × V)}
    (hvisit : (reviseEntries edit visits)[k]? = some visit) :
    ∃ t, cursor.next? = .ok (some (visit.2, t)) ∧ At visits slots edit (k + 1) t := by
  rw [getElem?_reviseEntries, Option.map_eq_some_iff] at hvisit
  obtain ⟨⟨b, key, v⟩, hplaced, rfl⟩ := hvisit
  have hkey : (visits.map fun visit => (visit.1, visit.2.1))[k]? = some (b, key) := by
    rw [List.getElem?_map, hplaced]
    rfl
  have hvalue : slots.placements[k]? = some (b, v) := by
    rw [hvalues, List.getElem?_map, hplaced]
    rfl
  obtain ⟨keys, hkeys, hrest⟩ := h.keys.of_drop hkey
  obtain ⟨values, hnext, hat⟩ := h.values.step hvalue
  refine ⟨⟨keys, values⟩, ?_, hrest, hat⟩
  rw [next?, hkeys]
  simp only [bind, Except.bind, hnext]
  rfl

section Traverses

variable (h : At visits slots edit 0 cursor)
  (hvalues : slots.placements = visits.map fun visit => (visit.1, visit.2.2))

include h hvalues

theorem At.traverses_keys : Traverses next? (fun cursor => cursor.keys.bucket?) (fun cursor => cursor.keys.remaining)
    cursor (reviseEntries edit visits) := by
  apply Traverses.of_at (fun _ _ _ hat => hat.step hvalues) (fun _ _ hat => hat.stop) h
  · intro k c hat
    rw [hat.keys.bucket_eq, List.head?_drop, List.getElem?_map, getElem?_reviseEntries, Option.map_map, Option.map_map]
    rfl
  · intro k c hat
    rw [hat.keys.remaining_eq, List.length_drop, List.length_map, length_reviseEntries]

/-- The value that is changed next is in the bucket of the key that is read next. -/
theorem At.traverses_values :
    Traverses next? (fun cursor => cursor.values.bucket?) (fun cursor => cursor.values.remaining) cursor
      (reviseEntries edit visits) := by
  apply Traverses.of_at (fun _ _ _ hat => hat.step hvalues) (fun _ _ hat => hat.stop) h
  · intro k c hat
    rw [hat.values.bucket_eq, hvalues, List.getElem?_map, getElem?_reviseEntries, Option.map_map, Option.map_map]
    rfl
  · intro k c hat
    rw [hat.values.remaining, hvalues, List.length_map, length_reviseEntries]

theorem At.takeUpTo (n : Nat) :
    ∃ behind, takeUpTo next? n cursor = .ok (((reviseEntries edit visits).take n).map Prod.snd, behind) ∧
      At visits slots edit (min n visits.length) behind := by
  rw [← length_reviseEntries edit visits]
  exact exists_takeUpTo_visits (fun _ _ _ hat => hat.step hvalues) (fun _ _ hat => hat.stop) h n

end Traverses

end EntryCursor

/-- The first `n` values of the slots were changed, and nothing else. -/
structure Slots.EditedTo (n : Nat) (edit : Nat → V → V) (slots t : Slots V) : Prop where
  size : t.size = slots.size
  placements : t.placements = revise (editFirst n edit) slots.placements

theorem Slots.EditedTo.unique {n : Nat} {edit : Nat → V → V} {slots t u : Slots V} (ht : slots.EditedTo n edit t)
    (hu : slots.EditedTo n edit u) : t = u :=
  Slots.ext_placements (ht.size.trans hu.size.symm) (ht.placements.trans hu.placements.symm)

theorem ValueCursor.At.editedTo {slots : Slots V} {edit : Nat → V → V} {n : Nat} {cursor : ValueCursor V}
    (h : At slots edit (min n slots.placements.length) cursor) : slots.EditedTo n edit cursor.slots := by
  refine ⟨h.size, ?_⟩
  rw [h.placements, revise_editFirst_min]

namespace FixedDict

open RobinHood.Action

variable {hasher : Hasher K} {s : Seating (K × V)}

theorem placements_values (hasher : Hasher K) (s : Seating (K × V)) :
    (ofEntries hasher s).values.placements = s.slots.placements.map fun visit => (visit.1, visit.2.2) :=
  Slots.placements_map Prod.snd s.slots

theorem at_valuesMut (hasher : Hasher K) (h : s.InStep) (edit : Nat → V → V) :
    ValueCursor.At (ofEntries hasher s).values edit 0 ((ofEntries hasher s).valuesMut edit) where
  edits := rfl
  visited := rfl
  remaining := by
    rw [placements_values, List.length_map]
    exact h.count_eq_length fun _ => rfl
  size := rfl
  placements := (revise_editFirst_zero _).symm
  ahead := rfl

theorem at_iterMut (hasher : Hasher K) (h : s.InStep) (edit : Nat → V → V) :
    EntryCursor.At s.slots.placements (ofEntries hasher s).values edit 0 ((ofEntries hasher s).iterMut edit) where
  keys := by
    rw [List.drop_zero, ← Slots.placements_map]
    exact FixedSet.visits_iter (s := (ofEntries hasher s).keys) (h.map Prod.fst)
  values := at_valuesMut hasher h edit

theorem runOn_editEntries (hasher : Hasher K) (h : s.InStep) (n : Nat) (edit : Nat → V → V) :
    ∃ values, (ofEntries hasher s).values.EditedTo n edit values ∧
      (editEntries n edit).runOn (ofEntries hasher s) =
        (.ok (((reviseEntries edit s.slots.placements).take n).map Prod.snd, s.slots.placements.length - n),
          { ofEntries hasher s with values }) := by
  have hvalues := placements_values hasher s
  obtain ⟨cursor, htaken, hat⟩ := (at_iterMut hasher h edit).takeUpTo hvalues n
  have hremaining : cursor.keys.remaining = s.slots.placements.length - n := by
    rw [hat.keys.remaining_eq, List.length_drop, List.length_map]
    omega
  have hedited := hat.values
  rw [show s.slots.placements.length = (ofEntries hasher s).values.placements.length by
    rw [hvalues, List.length_map]] at hedited
  refine ⟨_, hedited.editedTo, ?_⟩
  rw [editEntries, runOn_get_bind, htaken, runOn_ok_bind, ← hremaining]
  rfl

theorem runOn_editValues (hasher : Hasher K) (h : s.InStep) (n : Nat) (edit : Nat → V → V) :
    ∃ values, (ofEntries hasher s).values.EditedTo n edit values ∧
      (editValues n edit).runOn (ofEntries hasher s) =
        (.ok (((revise edit (s.slots.placements.map fun visit => (visit.1, visit.2.2))).take n).map Prod.snd,
          s.slots.placements.length - n), { ofEntries hasher s with values }) := by
  have hvalues := placements_values hasher s
  obtain ⟨cursor, htaken, hat⟩ := (at_valuesMut hasher h edit).takeUpTo n
  have hremaining : cursor.remaining = s.slots.placements.length - n := by
    rw [hat.remaining, hvalues, List.length_map]
    omega
  refine ⟨_, hat.editedTo, ?_⟩
  rw [editValues, runOn_get_bind, htaken, runOn_ok_bind, ← hremaining, hvalues]
  rfl

end FixedDict

end RobinHood
