import RobinHood.Proofs.Equality
import RobinHood.Proofs.FixedDict.Values

/-!
# All traversals agree

Cursors, owning cursors and steps from index to index find the occupied buckets in different ways: by regions, by a
search behind the last bucket, and by a search behind the last index. They all visit the same buckets.
-/

namespace RobinHood

variable {K V : Type}

/-! ### Going from index to index -/

/-- Going on by `next` from a position leads to `stop`, by way of the positions. -/
inductive Path (next : Nat → Except Fault Nat) (stop : Nat) : Nat → List Nat → Prop
  | done : Path next stop stop []
  | step {i j : Nat} {rest : List Nat} (hi : i ≠ stop) (hnext : next i = .ok j) (htail : Path next stop j rest) :
      Path next stop i (i :: rest)

theorem Path.eq_stop_iff {next : Nat → Except Fault Nat} {stop i : Nat} {positions : List Nat}
    (h : Path next stop i positions) : i = stop ↔ positions = [] := by
  cases h with
  | done => simp
  | step hi _ _ => simp [hi]

namespace FixedSet

variable {s : FixedSet K}

theorem path_from (h : s.toSeating.InStep) (start : Nat) :
    Path s.indexAfter s.endIndex ((s.table.firstOccupiedFrom start).getD s.table.endBucket)
      ((visitsFrom s.slots.occupant s.slots.size start).map Prod.fst) := by
  induction hlen : s.slots.size - start using Nat.strongRecOn generalizing start with
  | ind len ih =>
    have hfirst := s.table.firstOccupiedFrom_first start
    rw [show s.table.isOccupied = fun i => (s.slots.occupant i).isSome from funext h.occupied] at hfirst
    have hbound : ∀ i x, s.slots.occupant i = some x → i < s.slots.size := fun _ _ => Slots.lt_size_of_occupant
    obtain ⟨hnone, hlist⟩ | ⟨b, x, hsome, hle, hx, hlist⟩ := visitsFrom_of_first hbound hfirst
    · rw [hnone, hlist]
      exact .done
    · have hoccupied : s.table.isOccupied b = true := by
        rw [h.occupied, hx]
        rfl
      have hafter : s.indexAfter b = .ok ((s.table.firstOccupiedFrom (b + 1)).getD s.table.endBucket) := by
        rw [indexAfter, checkIndex, if_pos hoccupied]
        rfl
      have hlt := hbound b x hx
      rw [hsome, hlist]
      exact .step (Nat.ne_of_lt (s.table.lt_endBucket_of_isOccupied hoccupied)) hafter (ih _ (by omega) (b + 1) rfl)

theorem walkFrom_of_path {index : Nat} {positions : List Nat} (h : Path s.indexAfter s.endIndex index positions) :
    ∀ {fuel : Nat}, positions.length ≤ fuel → s.walkFrom fuel index = .ok positions := by
  induction h with
  | done =>
    rintro (_ | fuel) -
    · rfl
    · rw [walkFrom, if_pos rfl]
      rfl
  | step hi hnext htail ih =>
    rintro (_ | fuel) hle
    · cases hle
    · rw [walkFrom, if_neg hi, hnext]
      simp [bind, Except.bind, ih (Nat.le_of_succ_le_succ hle), pure, Except.pure]

/-! ### Sets -/

/-- Every traversal of the set pays the visits, which are those to the occupied buckets in increasing order. -/
structure TraversalsAgree (s : FixedSet K) (visits : List (Nat × K)) : Prop where
  increasing : visits.Pairwise fun visit later => visit.1 < later.1
  stored : ∀ b x, (b, x) ∈ visits ↔ s.slots.occupant b = some x
  occupied : ∀ b, s.table.isOccupied b = true ↔ b ∈ visits.map Prod.fst
  size : s.size = visits.length
  iter : Traverses Cursor.next? Cursor.bucket? Cursor.remaining s.iter visits
  indices : Traverses Cursor.next? Cursor.bucket? Cursor.remaining s.indices
    (visits.map fun visit => (visit.1, visit.1))
  intoIter : Traverses OwningCursor.next? OwningCursor.bucket? OwningCursor.remaining s.intoIter visits
  path : Path s.indexAfter s.endIndex s.startIndex (visits.map Prod.fst)
  walk : s.walk = .ok (visits.map Prod.fst)
  startIndex : s.startIndex = s.endIndex ↔ s.isEmpty = true

theorem traversalsAgree (h : s.toSeating.InStep) : s.TraversalsAgree s.slots.placements := by
  have hsize : s.size = s.slots.placements.length := h.count_eq_length fun _ => rfl
  have hpath : Path s.indexAfter s.endIndex s.startIndex (s.slots.placements.map Prod.fst) := path_from h 0
  exact {
    increasing := s.slots.pairwise_placements
    stored := fun _ _ => Slots.mem_placements
    occupied := fun b => by
      rw [h.occupied, Option.isSome_iff_exists, List.mem_map]
      constructor
      · rintro ⟨x, hx⟩
        exact ⟨(b, x), Slots.mem_placements.mpr hx, rfl⟩
      · rintro ⟨⟨_, x⟩, hvisit, rfl⟩
        exact ⟨x, Slots.mem_placements.mp hvisit⟩
    size := hsize
    iter := (visits_iter h).traverses
    indices := (visits_indices h).traverses
    intoIter := (visits_intoIter h).traverses
    path := hpath
    walk := by
      apply walkFrom_of_path hpath
      rw [List.length_map, ← hsize]
      exact h.count_le_endBucket
    startIndex := by
      rw [hpath.eq_stop_iff, List.map_eq_nil_iff, ← List.length_eq_zero_iff, ← hsize, isEmpty, Table.isEmpty,
        beq_iff_eq]
      rfl }

end FixedSet

/-! ### Dictionaries -/

namespace FixedDict

/-- Every traversal of the dictionary pays the visits, as does every traversal of its keys. -/
structure TraversalsAgree (d : FixedDict K V) (visits : List (Nat × (K × V))) : Prop where
  increasing : visits.Pairwise fun visit later => visit.1 < later.1
  stored : ∀ b x, (b, x) ∈ visits ↔ d.Holds b x
  occupied : ∀ b, d.table.isOccupied b = true ↔ b ∈ visits.map Prod.fst
  size : d.size = visits.length
  iter : Traverses Cursor.next? Cursor.bucket? Cursor.remaining d.iter visits
  keys : d.keys.TraversalsAgree (visits.map fun visit => (visit.1, visit.2.1))
  values : Traverses Cursor.next? Cursor.bucket? Cursor.remaining d.iterValues
    (visits.map fun visit => (visit.1, visit.2.2))
  indices : Traverses Cursor.next? Cursor.bucket? Cursor.remaining d.indices
    (visits.map fun visit => (visit.1, visit.1))
  intoIter : Traverses OwningCursor.next? OwningCursor.bucket? OwningCursor.remaining d.intoIter visits
  path : Path d.indexAfter d.endIndex d.startIndex (visits.map Prod.fst)
  startIndex : d.startIndex = d.endIndex ↔ d.isEmpty = true

variable {hasher : Hasher K} {s : Seating (K × V)}

theorem traversalsAgree (h : s.InStep) : (ofEntries hasher s).TraversalsAgree s.slots.placements := by
  have hkeys : (ofEntries hasher s).keys.TraversalsAgree
      (s.slots.placements.map fun visit => (visit.1, visit.2.1)) := by
    rw [← Slots.placements_map]
    exact FixedSet.traversalsAgree (s := (ofEntries hasher s).keys) (h.map Prod.fst)
  have hbuckets : (s.slots.placements.map fun visit => (visit.1, visit.2.1)).map Prod.fst =
      s.slots.placements.map Prod.fst := List.map_map
  have hindices := hkeys.indices
  have hpath := hkeys.path
  have hoccupied := hkeys.occupied
  rw [List.map_map] at hindices
  rw [hbuckets] at hpath hoccupied
  exact {
    increasing := s.slots.pairwise_placements
    stored := fun _ _ => Slots.mem_placements.trans holds_ofEntries.symm
    occupied := hoccupied
    size := h.count_eq_length fun _ => rfl
    iter := (visits_iter h).traverses
    keys := hkeys
    values := (visits_iterValues h).traverses
    indices := hindices
    intoIter := (visits_intoIter h).traverses
    path := hpath
    startIndex := hkeys.startIndex }

end FixedDict

/-! ### Containers of either kind -/

section Reachable

variable [BEq K] {hasher : Hasher K}

theorem AnySet.Reachable.inStep {s : AnySet K} (h : s.Reachable hasher) : s.storage.toSeating.InStep := by
  obtain ⟨c, m, hkeeps⟩ := h.storage.steady
  exact (FixedSet.steady hasher).inStep hkeeps

theorem AnyDict.Reachable.entries {d : AnyDict K V} (h : d.Reachable hasher) :
    ∃ s, d.storage = FixedDict.ofEntries hasher s ∧ s.InStep := by
  obtain ⟨c, m, hkeeps⟩ := h.storage.keptBy (FixedDict.steady hasher)
  exact (FixedDict.steady hasher).entries hkeeps

/-- However a container came about, all ways of going through it visit its occupied buckets, in increasing order, and
find what is stored there. -/
theorem traversals_agree :
    (∀ s : AnySet K, s.Reachable hasher → ∃ visits, s.storage.TraversalsAgree visits) ∧
    (∀ d : AnyDict K V, d.Reachable hasher → ∃ visits, d.storage.TraversalsAgree visits) := by
  refine ⟨fun s hs => ⟨_, FixedSet.traversalsAgree hs.inStep⟩, fun d hd => ?_⟩
  obtain ⟨s, hentries, hstep⟩ := hd.entries
  rw [hentries]
  exact ⟨_, FixedDict.traversalsAgree hstep⟩

end Reachable

/-- A run that goes on from the last bucket to the first ones, behind a bucket that was left by a removal. -/
theorem traversals_agree_wrapping : ∃ (d : AnyDict Nat String) (visits : List (Nat × (Nat × String))),
    d.Reachable (fun _ key => if key < 4 then 31 else key.toUInt64) ∧ d.storage.table.isDense = false ∧
    visits.map Prod.fst = [0, 1, 30, 31] ∧ d.storage.TraversalsAgree visits := by
  have hnew : AnyDict.Reachable (V := String) (fun _ (key : Nat) => if key < 4 then 31 else key.toUInt64)
      (.fixed ⟨_, _⟩) := .fixed (rfl : FixedDict.vacant 20 _ 0 = .ok _)
  have hfilled := hnew.callFixed (.extend [(1, "one"), (2, "two"), (9, "nine"), (3, "three"), (30, "thirty")] :
    FixedDict.Call Nat String Empty Empty)
  have hd := hfilled.callFixed (.entry (.remove 9) : FixedDict.Call Nat String Empty Empty)
  obtain ⟨visits, hvisits⟩ := traversals_agree.2 _ hd
  have hwalk := hvisits.keys.walk.symm.trans (by decide +kernel : _ = .ok [0, 1, 30, 31])
  rw [List.map_map] at hwalk
  exact ⟨_, visits, hd, by decide +kernel, Except.ok.inj hwalk, hvisits⟩

end RobinHood
