import RobinHood.Proofs.FixedDict.Upkeep
import RobinHood.Proofs.FixedSet.Sturdy

/-!
# Dictionaries that answer every query

The same for a dictionary whose keys and values are in step with its table. A query that needs the value of
an entry finds it, as value slots are held where key slots are.
-/

namespace RobinHood.FixedDict

open RobinHood.Action

variable {K V : Type} [BEq K]

/-- Slots hold keys and values where the table says so, and no query finds fault with that. -/
structure Sturdy (d : FixedDict K V) : Prop where
  keys : d.keys.Sturdy
  size_values : d.values.size = d.table.bucketCount
  occupied : ∀ bucket, (d.values.occupant bucket).isSome = d.table.isOccupied bucket
  get : ∀ key, Answered (d.get? key)
  /-- An index of an occupied bucket, whoever it was made for, addresses the occupant. -/
  deref : ∀ index x, d.Holds index x → d.entryAt index = .ok x ∧
    ∀ value, (replaceAt index value).runOn d = (.ok x.2, d.assignValue index (some value))
  outOfBounds : ∀ index, d.table.isOccupied index = false → d.entryAt index = .error .indexOutOfBounds ∧
    ∀ value, (replaceAt index value).runOn d = (.error .indexOutOfBounds, d)
  iter : ∀ n, Answered (d.iter.take n)
  iterValues : ∀ n, Answered (d.iterValues.take n)
  intoIter : ∀ n, Answered (d.intoIter.take n)
  unorderedHash : ∀ [Digestible K] [Digestible V] (seed : UInt64), Answered (d.unorderedHash seed)
  digestInto : ∀ [Digestible K] [Digestible V] (digest : Digest), Answered (d.digestInto digest)
  shownEntries : ∀ [Shown K] [Shown V], Answered d.shownEntries

omit [BEq K]

variable {hasher : Hasher K} {s : Seating (K × V)}

theorem unorderedHash_answered (hasher : Hasher K) (h : s.InStep) [Digestible K] [Digestible V] (seed : UInt64) :
    Answered ((ofEntries hasher s).unorderedHash seed) :=
  ⟨_, by rw [unorderedHash, toList_iter h]; rfl⟩

theorem isOccupied_of_holds (h : s.InStep) {index : Nat} {x : K × V} (hx : (ofEntries hasher s).Holds index x) :
    (ofEntries hasher s).table.isOccupied index = true := by
  apply (h.occupied index).trans
  rw [holds_ofEntries.mp hx]
  rfl

variable [BEq K]

theorem get?_answered (h : s.InStep) (key : K) : Answered ((ofEntries hasher s).get? key) := by
  obtain ⟨found, hfind, hfinds⟩ := h.find (hasher s.table.seed key) fun x => x.1 == key
  have hsearch := (search_ofEntries hasher s key).trans hfind
  cases found with
  | none => exact ⟨none, get?_of_search_none hsearch⟩
  | some bucket =>
    obtain ⟨x, hx, -⟩ := hfinds bucket rfl
    exact ⟨some x.2, get?_of_search_some hsearch (holds_ofEntries.mpr hx)⟩

theorem sturdy_of_inStep (h : s.InStep) : (ofEntries hasher s).Sturdy where
  keys := FixedSet.sturdy_of_inStep (h.map Prod.fst)
  size_values := (Slots.size_map Prod.snd s.slots).trans h.size_slots
  occupied bucket := by
    apply Eq.trans _ (h.occupied bucket).symm
    rw [ofEntries, Slots.occupant_map, Option.isSome_map]
  get := get?_answered h
  deref index x hx := by
    have hoccupied : (ofEntries hasher s).keys.table.isOccupied index = true := isOccupied_of_holds h hx
    refine ⟨?_, fun value => ?_⟩
    · rw [entryAt, FixedSet.checkIndex, if_pos hoccupied]
      exact entryIn_of_holds hx
    · simp only [replaceAt, runOn_get_bind, FixedSet.checkIndex, if_pos hoccupied]
      exact runOn_replaceIn hx value
  outOfBounds index hfree := by
    have hcheck : (ofEntries hasher s).keys.checkIndex index = .error .indexOutOfBounds :=
      FixedSet.checkIndex_of_free hfree
    refine ⟨?_, fun value => ?_⟩
    · rw [entryAt, hcheck]
      rfl
    · simp only [replaceAt, runOn_get_bind, hcheck]
      rfl
  iter := (yields_iter h).answered
  iterValues := (visits_iterValues h).yields.answered
  intoIter := (yields_intoIter h).answered
  unorderedHash := unorderedHash_answered hasher h
  digestInto digest := by
    obtain ⟨hash, hhash⟩ := unorderedHash_answered hasher h digest.finish
    exact ⟨_, by rw [digestInto, Digest.feedUnordered, hhash]; rfl⟩
  shownEntries := ⟨_, by rw [shownEntries, toList_iter h]; rfl⟩

/-! ### Comparing -/

section Comparing

variable {m : Type → Type} [Monad m] [LawfulMonad m]

theorem answered_bind {α β : Type} (x : α) (next : α → ExceptT Fault m β) :
    (liftM (Except.ok x : Except Fault α) : ExceptT Fault m α) >>= next = next x :=
  pure_bind x next

theorem allM_answered {ι : Type} {f : ι → ExceptT Fault m Bool}
    (h : ∀ i, ∃ answer : m Bool, (f i).run = Except.ok <$> answer) (items : List ι) :
    ∃ answer : m Bool, (items.allM f).run = Except.ok <$> answer := by
  induction items with
  | nil => exact ⟨pure true, (map_pure _ _).symm⟩
  | cons i rest ih =>
    obtain ⟨first, hfirst⟩ := h i
    obtain ⟨others, hothers⟩ := ih
    refine ⟨first >>= fun accepted => if accepted then others else pure false, ?_⟩
    rw [List.allM, ExceptT.run_bind, hfirst, bind_map_left, map_bind]
    congr 1
    funext accepted
    cases accepted with
    | false => exact (map_pure _ _).symm
    | true => exact hothers

/-- The counterpart of an entry is found with its value, so that only the comparison of values is left to
answer. -/
theorem Sturdy.counterpart {e : FixedDict K V} (he : e.Sturdy) (same : V → V → m Bool) (entry : K × V) :
    ∃ answer : m Bool, (do
      match (← e.keys.search entry.1).bucket with
      | some bucket =>
        let counterpart ← e.values.get bucket
        same entry.2 counterpart
      | none => return false : ExceptT Fault m Bool).run = Except.ok <$> answer := by
  obtain ⟨⟨found, hash⟩, hsearch, hfound⟩ := he.keys.search entry.1
  cases found with
  | none => exact ⟨pure false, by rw [hsearch, answered_bind, map_pure]; rfl⟩
  | some bucket =>
    obtain ⟨key, hkey, -⟩ := hfound bucket rfl
    -- The key slot is held, so the bucket is occupied, so the value slot is held.
    have hheld : (e.values.occupant bucket).isSome = true := by
      rw [he.occupied, table, ← he.keys.occupied, hkey]
      rfl
    obtain ⟨counterpart, hcounterpart⟩ := Option.isSome_iff_exists.mp hheld
    refine ⟨same entry.2 counterpart, ?_⟩
    rw [hsearch, answered_bind]
    dsimp only
    rw [Slots.get_of_occupant hcounterpart, answered_bind]
    rfl

theorem Sturdy.equalsBy {d e : FixedDict K V} (hd : d.Sturdy) (he : e.Sturdy) (same : V → V → m Bool) :
    ∃ answer : m Bool, (d.equalsBy same (.other e)).run = Except.ok <$> answer := by
  obtain ⟨⟨listed, behind⟩, hlisted⟩ := hd.iter (d.iter.buckets.regions.table.endBucket + 1)
  have hall : d.iter.toList = .ok listed := by rw [Cursor.toList, hlisted]; rfl
  rw [FixedDict.equalsBy]
  split
  · rw [hall, answered_bind]
    exact allM_answered (he.counterpart same) listed
  · exact ⟨pure false, (map_pure _ _).symm⟩

end Comparing

end RobinHood.FixedDict
