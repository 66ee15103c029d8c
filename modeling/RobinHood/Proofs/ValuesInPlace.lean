import RobinHood.Proofs.Traversals

/-!
# Changing values in place

A traversal that changes values looks for them in the value slots, without asking the table. It keeps in step with
the keys all the same, and where it is given up it has changed the values of the entries that it passed.
-/

namespace RobinHood

variable {K V : Type}

theorem eq_reviseEntries {edit : Nat → V → V} {visits after : List (Nat × (K × V))}
    (hkeys : (after.map fun visit => (visit.1, visit.2.1)) = visits.map fun visit => (visit.1, visit.2.1))
    (hvalues : (after.map fun visit => (visit.1, visit.2.2)) =
      revise edit (visits.map fun visit => (visit.1, visit.2.2))) :
    after = reviseEntries edit visits := by
  apply List.ext_getElem?
  intro j
  have hkey := congrArg (fun list : List (Nat × K) => list[j]?) hkeys
  have hvalue := congrArg (fun list : List (Nat × V) => list[j]?) hvalues
  simp only [getElem?_revise, List.getElem?_map] at hkey hvalue
  rw [getElem?_reviseEntries]
  cases hbefore : visits[j]? with
  | none =>
    rw [hbefore, Option.map_none, Option.map_eq_none_iff] at hkey
    exact hkey
  | some visit =>
    rw [hbefore, Option.map_some, Option.map_eq_some_iff] at hkey
    obtain ⟨⟨b, key, value⟩, hafter, hsame⟩ := hkey
    obtain ⟨rfl, rfl⟩ := Prod.mk.inj hsame
    rw [hafter, hbefore] at hvalue
    obtain ⟨-, rfl⟩ := Prod.mk.inj (Option.some.inj hvalue)
    exact hafter

namespace FixedDict

variable [BEq K] {hasher : Hasher K} {s : Seating (K × V)}

/-- With its first values changed, a dictionary has the same entries with these values. -/
theorem traversalsAgree_edited (h : s.InStep) {n : Nat} {edit : Nat → V → V} {values : Slots V}
    (hedited : (ofEntries hasher s).values.EditedTo n edit values) :
    { ofEntries hasher s with values }.TraversalsAgree (reviseEntries (editFirst n edit) s.slots.placements) := by
  have hsteady : (steady hasher).Keeps s.table.capacity (ofEntries hasher s) s.slots.elements :=
    ⟨s, rfl, rfl, h, .refl _⟩
  obtain ⟨values', hedited', hrun⟩ := runOn_editEntries hasher h n edit
  obtain rfl := hedited'.unique hedited
  have hafter := (Upkeep.editEntries_safe hsteady n edit).after
  rw [hrun] at hafter
  obtain ⟨m, hkeeps, -⟩ := hafter
  obtain ⟨t, ht, hstep⟩ : ∃ t, { ofEntries hasher s with values := values' } = ofEntries hasher t ∧ t.InStep :=
    (steady hasher).entries hkeeps
  have hkeys : (ofEntries hasher t).keys.slots.placements = (ofEntries hasher s).keys.slots.placements := by rw [← ht]
  have hvalues : (ofEntries hasher t).values.placements = values'.placements := by rw [← ht]
  rw [placements_values, hedited.placements, placements_values] at hvalues
  rw [ht, ← eq_reviseEntries ?_ hvalues]
  · exact traversalsAgree hstep
  · rw [← Slots.placements_map, ← Slots.placements_map]
    exact hkeys

end FixedDict

namespace AnyDict

def withStorage (storage : FixedDict K V) : AnyDict K V → AnyDict K V
  | .fixed _ => .fixed storage
  | .growing g => .growing { g with storage }

def editEntries (n : Nat) (edit : Nat → V → V) : AnyDict K V → Except Fault (List (K × V) × Nat) × AnyDict K V
  | .fixed d => ((FixedDict.editEntries n edit).runOn d).map id .fixed
  | .growing g => ((GrowDict.editEntries n edit).runOn g).map id .growing

def editValues (n : Nat) (edit : Nat → V → V) : AnyDict K V → Except Fault (List V × Nat) × AnyDict K V
  | .fixed d => ((FixedDict.editValues n edit).runOn d).map id .fixed
  | .growing g => ((GrowDict.editValues n edit).runOn g).map id .growing

section Run

variable {d : AnyDict K V} {n : Nat} {edit : Nat → V → V} {t : FixedDict K V}

theorem editEntries_of_run {outcome : Except Fault (List (K × V) × Nat)}
    (h : (FixedDict.editEntries n edit).runOn d.storage = (outcome, t)) :
    d.editEntries n edit = (outcome, d.withStorage t) := by
  cases d with
  | fixed d =>
    rw [editEntries, show (FixedDict.editEntries n edit).runOn d = _ from h]
    rfl
  | growing g =>
    rw [editEntries, show (GrowDict.editEntries n edit).runOn g = _ from Growable.runOn_onStorage h]
    rfl

theorem editValues_of_run {outcome : Except Fault (List V × Nat)}
    (h : (FixedDict.editValues n edit).runOn d.storage = (outcome, t)) :
    d.editValues n edit = (outcome, d.withStorage t) := by
  cases d with
  | fixed d =>
    rw [editValues, show (FixedDict.editValues n edit).runOn d = _ from h]
    rfl
  | growing g =>
    rw [editValues, show (GrowDict.editValues n edit).runOn g = _ from Growable.runOn_onStorage h]
    rfl

end Run

/-- Given up behind the first `n` entries, either traversal has changed the values to these. -/
structure ChangedTo (d : AnyDict K V) (visits : List (Nat × (K × V))) (n : Nat) (edit : Nat → V → V)
    (values : Slots V) : Prop where
  slots : d.storage.values.EditedTo n edit values
  entries : { d.storage with values }.TraversalsAgree (reviseEntries (editFirst n edit) visits)
  editEntries : d.editEntries n edit =
    (.ok (((reviseEntries edit visits).take n).map Prod.snd, visits.length - n),
      d.withStorage { d.storage with values })
  editValues : d.editValues n edit =
    (.ok (((revise edit (visits.map fun visit => (visit.1, visit.2.2))).take n).map Prod.snd, visits.length - n),
      d.withStorage { d.storage with values })

/-- Traversals that change values pay the visits that all others pay. Over entries, the bucket of the key and the
slot of the value are the same each time. -/
structure EditsInPlace (d : AnyDict K V) (visits : List (Nat × (K × V))) : Prop where
  agree : d.storage.TraversalsAgree visits
  keys : ∀ edit, Traverses EntryCursor.next? (fun cursor => cursor.keys.bucket?) (fun cursor => cursor.keys.remaining)
    (d.storage.iterMut edit) (reviseEntries edit visits)
  slots : ∀ edit, Traverses EntryCursor.next? (fun cursor => cursor.values.bucket?)
    (fun cursor => cursor.values.remaining) (d.storage.iterMut edit) (reviseEntries edit visits)
  values : ∀ edit, Traverses ValueCursor.next? ValueCursor.bucket? ValueCursor.remaining (d.storage.valuesMut edit)
    (revise edit (visits.map fun visit => (visit.1, visit.2.2)))
  changes : ∀ n edit, ∃ values, d.ChangedTo visits n edit values

theorem editsInPlace_of_entries [BEq K] {hasher : Hasher K} {d : AnyDict K V} {s : Seating (K × V)}
    (hentries : d.storage = FixedDict.ofEntries hasher s) (h : s.InStep) : d.EditsInPlace s.slots.placements := by
  have hvalues := FixedDict.placements_values hasher s
  exact {
    agree := hentries ▸ FixedDict.traversalsAgree h
    keys := fun edit => hentries ▸ (FixedDict.at_iterMut hasher h edit).traverses_keys hvalues
    slots := fun edit => hentries ▸ (FixedDict.at_iterMut hasher h edit).traverses_values hvalues
    values := fun edit => by
      rw [hentries, ← hvalues]
      exact (FixedDict.at_valuesMut hasher h edit).traverses
    changes := fun n edit => by
      obtain ⟨values, hedited, hrunEntries⟩ := FixedDict.runOn_editEntries hasher h n edit
      obtain ⟨values', hedited', hrunValues⟩ := FixedDict.runOn_editValues hasher h n edit
      obtain rfl := hedited'.unique hedited
      rw [← hentries] at hedited hrunEntries hrunValues
      refine ⟨values', hedited, ?_, editEntries_of_run hrunEntries, editValues_of_run hrunValues⟩
      rw [hentries] at hedited ⊢
      exact FixedDict.traversalsAgree_edited h hedited }

end AnyDict

/-- Whatever a dictionary has been through, a traversal that changes values goes along with the keys. Given up at any
point it has changed the values of the entries before, and nothing else. -/
theorem values_edited_in_place [BEq K] (hasher : Hasher K) (d : AnyDict K V) (hd : d.Reachable hasher) :
    ∃ visits, d.EditsInPlace visits := by
  obtain ⟨s, hentries, hstep⟩ := hd.entries
  exact ⟨_, AnyDict.editsInPlace_of_entries hentries hstep⟩

/-- The caller's function takes a value and gives up, and the storage is abandoned for a smaller one. Four of the six
values that are left are changed then. -/
theorem values_edited_in_place_after_abort : ∃ (g : GrowDict Nat Nat) (visits : List (Nat × (Nat × Nat))),
    AnyDict.Reachable (fun _ key => if key < 8 then 5 else key.toUInt64) (.growing g) ∧ g.capacity = 7 ∧
    AnyDict.EditsInPlace (.growing g) visits ∧
    (AnyDict.editEntries 4 (fun j value => value + j + 1) (.growing g)).1 =
      .ok ([(1, 11), (2, 22), (4, 43), (5, 54)], 2) ∧
    (AnyDict.editEntries 4 (fun j value => value + j + 1) (.growing g)).2.storage.iterValues.toList =
      .ok [11, 22, 43, 54, 60, 70] := by
  have hnew : AnyDict.Reachable (V := Nat) (fun _ (key : Nat) => if key < 8 then 5 else key.toUInt64)
      (.growing ⟨_, .constant 0, []⟩) := .growing (rfl : GrowDict.vacant 0 _ _ = .ok _)
  have hfilled := hnew.callGrowing
    (.extend [(1, 10), (2, 20), (3, 30), (4, 40), (5, 50), (6, 60), (7, 70)] 20 : GrowDict.Call Nat Nat Empty Empty)
  have hless := hfilled.callGrowing
    (.entry (.edit 3 fun _ => (none, .error "stop")) : GrowDict.Call Nat Nat Empty Empty)
  obtain ⟨visits, hvisits⟩ := values_edited_in_place _ _ hless
  exact ⟨_, visits, hless, by decide +kernel, hvisits, by decide +kernel, by decide +kernel⟩

end RobinHood
