import RobinHood.Proofs.Action
import RobinHood.Proofs.FixedSet
import RobinHood.Proofs.Ledger.Dicts
import RobinHood.Proofs.Seating.Map

/-!
# Fixed dictionaries keep ledgers

A fixed dictionary is read as one seating of entries, of which the keys' slots and the values' slots are two
images. As both arrays go through the moves of that seating, what was shown of seatings holds of entries.
-/

namespace RobinHood.FixedDict

open RobinHood.Action RobinHood.Ledger

variable {K V ε R : Type}

/-- The dictionary that holds the entries of a seating. -/
def ofEntries (hasher : Hasher K) (s : Seating (K × V)) : FixedDict K V where
  keys := { s.map Prod.fst with hasher }
  values := s.slots.map Prod.snd

def Holds (d : FixedDict K V) (b : Nat) (x : K × V) : Prop :=
  d.keys.slots.occupant b = some x.1 ∧ d.values.occupant b = some x.2

def assignValue (d : FixedDict K V) (b : Nat) (content : Option V) : FixedDict K V where
  keys := d.keys
  values := d.values.assign b content

variable {hasher : Hasher K} {c : Nat} {d : FixedDict K V} {s : Seating (K × V)} {m : List (K × V)} {key : K}
  {value : V} {x : K × V} {b : Nat} {content : Option V}

theorem holds_ofEntries : Holds (ofEntries hasher s) b x ↔ s.slots.occupant b = some x := by
  have hkeys : (ofEntries hasher s).keys.slots.occupant b = (s.slots.occupant b).map Prod.fst :=
    Slots.occupant_map _ _ _
  have hvalues : (ofEntries hasher s).values.occupant b = (s.slots.occupant b).map Prod.snd :=
    Slots.occupant_map _ _ _
  rw [Holds, hkeys, hvalues]
  cases s.slots.occupant b with
  | none => simp
  | some y => simp [Prod.ext_iff]

theorem assignValue_self (hx : Holds d b x) : d.assignValue b (some x.2) = d := by
  rw [assignValue, Slots.assign_self hx.2]

theorem ofEntries_assignValue (hx : s.slots.occupant b = some x) (value : V) :
    (ofEntries hasher s).assignValue b (some value) =
      ofEntries hasher ⟨s.table, s.slots.assign b (some (x.1, value))⟩ := by
  have hkeys : (s.slots.assign b (some (x.1, value))).map Prod.fst = s.slots.map Prod.fst := by
    rw [← Slots.assign_map]
    apply Slots.assign_self
    rw [Slots.occupant_map, hx]
    rfl
  have hvalues : (s.slots.assign b (some (x.1, value))).map Prod.snd =
      (s.slots.map Prod.snd).assign b (some value) :=
    (Slots.assign_map _ _ _ _).symm
  simp only [assignValue, ofEntries, Seating.map, hkeys, hvalues]

theorem vacant_eq_map (c : Nat) (hasher : Hasher K) (seed : UInt64) :
    (vacant c hasher seed : Except Fault (FixedDict K V)) = ofEntries hasher <$> Seating.vacant c seed := by
  rw [vacant, FixedSet.vacant, Seating.vacant_map Prod.fst, Seating.vacant]
  cases Table.vacant c seed with
  | error fault => rfl
  | ok table =>
    simp only [Functor.map, Except.map, bind, Except.bind, pure, Except.pure]
    rw [ofEntries, Slots.map_vacant]
    rfl

theorem hashOf_ofEntries (hasher : Hasher K) (s : Seating (K × V)) :
    (ofEntries hasher s).keys.hashOf ∘ Prod.fst = Seating.entryHash Prod.fst hasher s := rfl

theorem takeCell_assignValue (hasher : Hasher K) (hx : s.slots.occupant b = some x) (content : Option V) :
    ((ofEntries hasher s).assignValue b content).values.takeCell b =
      .ok (content, (s.slots.assign b none).map Prod.snd) := by
  have hb : b < (s.slots.map Prod.snd).size := by
    rw [Slots.size_map]
    exact Slots.lt_size_of_occupant hx
  have hassign : ((s.slots.map Prod.snd).assign b content).assign b none =
      (s.slots.assign b none).map Prod.snd := by
    rw [Slots.assign_assign, ← Option.map_none, Slots.assign_map]
  rw [assignValue, ofEntries, Slots.takeCell_of_lt (by rwa [Slots.size_assign]), Slots.occupant_assign hb,
    Function.update_self, hassign]

theorem perform_values {unseated : Unseated (K × V)} (h : Seating.Unseats s b unseated) :
    ((s.slots.assign b none).map Prod.snd).perform none unseated.moves =
      .ok (unseated.seating.slots.map Prod.snd) := by
  apply (Slots.perform_map Prod.snd unseated.moves _ none).trans
  rw [h.performed]
  rfl

/-! The key table does with the keys what a seating does with the entries. -/

theorem keys_seat {seated : Seated (K × V)} {hash : UInt64}
    (hok : s.seat (Seating.entryHash Prod.fst hasher s) (key, value) hash = .ok seated) :
    (ofEntries hasher s).keys.seat (ofEntries hasher s).keys.hashOf key hash = .ok (seated.map Prod.fst) := by
  apply (Seating.seat_map Prod.fst s _ (key, value) _).trans
  rw [hashOf_ofEntries, hok]
  rfl

theorem keys_unseat {unseated : Unseated (K × V)}
    (hok : s.unseat (Seating.entryHash Prod.fst hasher s) b = .ok unseated) :
    (ofEntries hasher s).keys.unseat (ofEntries hasher s).keys.hashOf b = .ok (unseated.map Prod.fst) := by
  apply (Seating.unseat_map Prod.fst s (ofEntries hasher s).keys.hashOf b).trans
  rw [hashOf_ofEntries, hok]
  rfl

theorem keys_abandon {unseated : Unseated (K × V)} (hok : s.abandon b = .ok unseated) :
    (ofEntries hasher s).keys.abandon b = .ok (unseated.map Prod.fst) := by
  apply (Seating.abandon_map Prod.fst s b).trans
  rw [hok]
  rfl

/-! ### Running the changes -/

theorem runOn_insertNew {seated : Seated (K × V)} {hash : UInt64} (hroom : s.table.count ≠ s.table.capacity)
    (hok : s.seat (Seating.entryHash Prod.fst hasher s) (key, value) hash = .ok seated)
    (hseats : Seating.Seats s (key, value) seated) :
    (insertNew key value hash).runOn (ofEntries hasher s) = (.ok seated.landed, ofEntries hasher seated.seating) := by
  have hfull : (ofEntries hasher s).isFull = false := beq_eq_false_iff_ne.mpr hroom
  have hkeys := keys_seat hok
  have hvalues : (ofEntries hasher s).values.perform (some value) (seated.map Prod.fst).moves =
      .ok (seated.seating.slots.map Prod.snd) := by
    apply (Slots.perform_map Prod.snd seated.moves s.slots (some (key, value))).trans
    rw [hseats.performed]
    rfl
  simp only [insertNew, runOn_get_bind, hfull, Bool.false_eq_true, if_false, hkeys, hvalues, Except.mapError,
    runOn_ok_bind, runOn_set_bind]
  rfl

theorem runOn_insertNew_full {hash : UInt64} (hfull : d.table.count = d.table.capacity) :
    (insertNew key value hash).runOn d = (.error .dictionaryFull, d) := by
  have hfull : d.isFull = true := beq_iff_eq.mpr hfull
  simp only [insertNew, runOn_get_bind, runOn_throw_bind, hfull, if_true]

/-- Whatever was put into its value slot, an entry is removed with it. -/
theorem runOn_removeAt {unseated : Unseated (K × V)} (hok : s.unseat (Seating.entryHash Prod.fst hasher s) b = .ok unseated)
    (hunseats : Seating.Unseats s b unseated) (content : Option V) :
    (removeAt b).runOn ((ofEntries hasher s).assignValue b content) =
      (.ok (unseated.element.1, content), ofEntries hasher unseated.seating) := by
  have hkeys : ((ofEntries hasher s).assignValue b content).keys.unseat
      ((ofEntries hasher s).assignValue b content).keys.hashOf b = .ok (unseated.map Prod.fst) :=
    keys_unseat hok
  have htake := takeCell_assignValue hasher hunseats.element content
  have hvalues := perform_values hunseats
  have hmoves : (unseated.map Prod.fst).moves = unseated.moves := rfl
  simp only [removeAt, runOn_get_bind, hkeys, htake, hmoves, hvalues, runOn_ok_bind, runOn_set_bind]
  rfl

theorem runOn_abandonAt {unseated : Unseated (K × V)} (hok : s.abandon b = .ok unseated)
    (hunseats : Seating.Unseats s b unseated) (content : Option V) :
    (abandonAt b).runOn ((ofEntries hasher s).assignValue b content) =
      (.ok (unseated.element.1, content), ofEntries hasher unseated.seating) := by
  have hkeys : ((ofEntries hasher s).assignValue b content).keys.abandon b = .ok (unseated.map Prod.fst) :=
    keys_abandon hok
  have htake := takeCell_assignValue hasher hunseats.element content
  have hvalues := perform_values hunseats
  have hmoves : (unseated.map Prod.fst).moves = unseated.moves := rfl
  simp only [abandonAt, runOn_get_bind, hkeys, htake, hmoves, hvalues, runOn_ok_bind, runOn_set_bind]
  rfl

theorem runOn_replaceIn (hx : Holds d b x) (value : V) :
    (replaceIn b value).runOn d = (.ok x.2, d.assignValue b (some value)) := by
  simp only [replaceIn, runOn_get_bind, Slots.exchange_of_occupant hx.2, runOn_ok_bind, runOn_set_bind]
  rfl

theorem runOn_takeValue (hx : Holds d b x) :
    (takeValue b).runOn d = (.ok (some x.2), d.assignValue b none) := by
  simp only [takeValue, runOn_get_bind, Slots.takeCell_of_lt (Slots.lt_size_of_occupant hx.2), hx.2, runOn_ok_bind,
    runOn_set_bind]
  rfl

theorem runOn_putValue (hx : Holds d b x) (value : V) :
    (putValue b value).runOn (d.assignValue b none) = (.ok ⟨⟩, d.assignValue b (some value)) := by
  have hb : b < (d.values.assign b none).size := by
    rw [Slots.size_assign]
    exact Slots.lt_size_of_occupant hx.2
  simp only [putValue, runOn_get_bind, FixedDict.assignValue, Slots.put_of_lt hb, runOn_ok_bind, runOn_set,
    Slots.assign_assign]

theorem ofEntries_clear (hasher : Hasher K) (s : Seating (K × V)) :
    { keys := { (ofEntries hasher s).keys with toSeating := (ofEntries hasher s).keys.toSeating.clear }
      values := (ofEntries hasher s).values.clear } = ofEntries hasher s.clear := by
  have hvalues : (ofEntries hasher s).values.clear = s.clear.slots.map Prod.snd := Slots.clear_map _ _
  rw [hvalues, ofEntries, Seating.clear_map]
  rfl

theorem entryIn_of_holds (hx : Holds d b x) : d.entryIn b = .ok x := by
  rw [entryIn, Slots.get_of_occupant hx.1, Slots.get_of_occupant hx.2]
  rfl

theorem visits_iter (h : s.InStep) :
    Visits Cursor.next? Cursor.bucket? Cursor.remaining (ofEntries hasher s).iter s.slots.placements := by
  have hvisits := h.visits_cursor (g := fun _ x => x) fun _ _ hx =>
    entryIn_of_holds (d := ofEntries hasher s) (holds_ofEntries.mpr hx)
  rwa [show (fun visit : Nat × (K × V) => (visit.1, visit.2)) = id from rfl, List.map_id] at hvisits

theorem visits_iterValues (h : s.InStep) :
    Visits Cursor.next? Cursor.bucket? Cursor.remaining (ofEntries hasher s).iterValues
      (s.slots.placements.map fun visit => (visit.1, visit.2.2)) := by
  apply h.visits_cursor (g := fun _ x => x.2)
  intro b x hx
  rw [entryIn_of_holds (holds_ofEntries.mpr hx)]
  rfl

theorem visits_intoIter (h : s.InStep) :
    Visits OwningCursor.next? OwningCursor.bucket? OwningCursor.remaining (ofEntries hasher s).intoIter
      s.slots.placements := by
  have hentry : ∀ i x, s.slots.occupant i = some x → Holds (ofEntries hasher s) i x :=
    fun _ _ hx => holds_ofEntries.mpr hx
  refine h.visits_owningCursor ((ofEntries hasher s).keys.slots, (ofEntries hasher s).values) _
    (fun start store => ∀ i x, start ≤ i → s.slots.occupant i = some x →
      store.1.occupant i = some x.1 ∧ store.2.occupant i = some x.2)
    (fun i x _ => hentry i x) fun start b x store hholds hle hx => ?_
  obtain ⟨hkey, hvalue⟩ := hholds b x hle hx
  refine ⟨(store.1.assign b none, store.2.assign b none), ?_, fun i y hi hy => ?_⟩
  · simp only [Slots.take_of_occupant hkey, Slots.take_of_occupant hvalue, bind, Except.bind]
    rfl
  · rw [Slots.occupant_assign (Slots.lt_size_of_occupant hkey), Function.update_of_ne (by omega),
      Slots.occupant_assign (Slots.lt_size_of_occupant hvalue), Function.update_of_ne (by omega)]
    exact hholds i y (by omega) hy

theorem yields_iter (h : s.InStep) : Yields Cursor.next? (ofEntries hasher s).iter s.slots.elements := by
  rw [← Slots.map_snd_placements]
  exact (visits_iter h).yields

theorem yields_intoIter (h : s.InStep) : Yields OwningCursor.next? (ofEntries hasher s).intoIter s.slots.elements := by
  rw [← Slots.map_snd_placements]
  exact (visits_intoIter h).yields

theorem toList_iter (h : s.InStep) : (ofEntries hasher s).iter.toList = .ok s.slots.elements :=
  (yields_iter h).toList_cursor h.length_le_endBucket

theorem toList_intoIter (h : s.InStep) : (ofEntries hasher s).intoIter.toList = .ok s.slots.elements :=
  (yields_intoIter h).toList_owningCursor h.length_le_endBucket

variable [BEq K]

theorem search_ofEntries (hasher : Hasher K) (s : Seating (K × V)) (key : K) :
    (ofEntries hasher s).keys.search key = s.find (hasher s.table.seed key) fun x => x.1 == key :=
  Seating.find_map Prod.fst s _ _

theorem get?_of_search_none {hash : UInt64} (h : d.keys.search key = .ok ⟨none, hash⟩) : d.get? key = .ok none := by
  rw [get?, h]
  rfl

theorem get?_of_search_some {hash : UInt64} (h : d.keys.search key = .ok ⟨some b, hash⟩) (hx : Holds d b x) :
    d.get? key = .ok (some x.2) := by
  simp only [get?, h, bind, Except.bind, Option.mapM_some, Slots.get_of_occupant hx.2]
  rfl

/-- The dictionary holds the entries of the ledger where searches find them. -/
def Keeps (hasher : Hasher K) (c : Nat) (d : FixedDict K V) (m : List (K × V)) : Prop :=
  ∃ s, d = ofEntries hasher s ∧ s.table.capacity = c ∧ s.Keeps Prod.fst hasher m

def Stores (hasher : Hasher K) (c : Nat) (d : FixedDict K V) (m : List (K × V)) : Prop :=
  ∃ s, d = ofEntries hasher s ∧ s.table.capacity = c ∧ s.InStep ∧ s.slots.elements.Perm m ∧
    Distinct Prod.fst m

theorem Keeps.stores (h : Keeps hasher c d m) : Stores hasher c d m := by
  obtain ⟨s, hd, hcap, hkeeps⟩ := h
  exact ⟨s, hd, hcap, hkeeps.orderly.toInStep, hkeeps.elements, hkeeps.distinct⟩

theorem keeps_nil {seed : UInt64} (hvacant : vacant c hasher seed = .ok d) : Keeps hasher c d [] := by
  rw [vacant_eq_map] at hvacant
  cases hseating : (Seating.vacant c seed : Except Fault (Seating (K × V))) with
  | error fault =>
    rw [hseating] at hvacant
    cases hvacant
  | ok s =>
    rw [hseating] at hvacant
    obtain ⟨-, -, hcap⟩ := Seating.vacant_eq_ok hseating fun _ => 0
    exact ⟨s, (Except.ok.inj hvacant).symm, hcap, Seating.keeps_nil hseating⟩

theorem exists_keeps_nil (hasher : Hasher K) (seed : UInt64) (hle : c ≤ Scale.limit) :
    ∃ d : FixedDict K V, vacant c hasher seed = .ok d ∧ Keeps hasher c d [] := by
  obtain ⟨s, hseating⟩ := Seating.exists_vacant (α := K × V) seed hle
  have hvacant : vacant c hasher seed = .ok (ofEntries hasher s) := by
    rw [vacant_eq_map, hseating]
    rfl
  exact ⟨_, hvacant, keeps_nil hvacant⟩

theorem Keeps.length_le (h : Keeps hasher c d m) : m.length ≤ c := by
  obtain ⟨s, rfl, rfl, hkeeps⟩ := h
  exact hkeeps.length_le

theorem Keeps.isFull (h : Keeps hasher c d m) : d.isFull = (m.length == c) := by
  obtain ⟨s, rfl, rfl, hkeeps⟩ := h
  exact hkeeps.isFull

theorem Keeps.isFull_eq_true_iff (h : Keeps hasher c d m) : d.isFull = true ↔ ¬ m.length < c := by
  have hle := h.length_le
  rw [h.isFull, beq_iff_eq]
  omega

variable [EquivBEq K]

theorem Keeps.search (h : Keeps hasher c d m) (hlawful : hasher.Lawful) (key : K) :
    (∃ b x, d.keys.search key = .ok ⟨some b, d.keys.probeHash hasher key⟩ ∧ Holds d b x ∧
      lookup Prod.fst m key = some x) ∨
    (d.keys.search key = .ok ⟨none, d.keys.probeHash hasher key⟩ ∧ lookup Prod.fst m key = none) := by
  obtain ⟨s, rfl, -, hkeeps⟩ := h
  have hsearch := search_ofEntries hasher s key
  obtain ⟨b, x, hfind, hx, hlookup⟩ | ⟨hfind, hlookup⟩ := hkeeps.find hlawful key
  · exact .inl ⟨b, x, hsearch.trans hfind, holds_ofEntries.mpr hx, hlookup⟩
  · exact .inr ⟨hsearch.trans hfind, hlookup⟩

theorem Keeps.insertNew (h : Keeps hasher c d m) (hnone : lookup Prod.fst m key = none) (value : V) :
    Enters (Keeps hasher c) Holds ⟨c, .dictionaryFull⟩
      (insertNew key value (d.keys.probeHash hasher key)) d m (key, value) := by
  obtain ⟨s, rfl, rfl, hkeeps⟩ := h
  have hle := hkeeps.length_le
  have hcount := hkeeps.count
  rw [Enters]
  by_cases hroom : m.length < s.table.capacity
  · rw [if_pos hroom]
    obtain ⟨seated, hok, hseats, hkeeps'⟩ := hkeeps.seat (x := (key, value)) hroom hnone
    exact ⟨_, _, runOn_insertNew (by omega) hok hseats, ⟨_, rfl, hseats.like.capacity, hkeeps'⟩,
      holds_ofEntries.mpr hseats.landed⟩
  · rw [if_neg hroom]
    exact runOn_insertNew_full (show s.table.count = s.table.capacity by omega)

theorem Keeps.assignValue (h : Keeps hasher c d m) (hlawful : hasher.Lawful) (hx : Holds d b x)
    (hkey : (x.1 == key) = true) (value : V) :
    Keeps hasher c (d.assignValue b (some value)) (store key value m) := by
  obtain ⟨s, rfl, hcap, hkeeps⟩ := h
  rw [holds_ofEntries] at hx
  rw [ofEntries_assignValue hx]
  exact ⟨_, rfl, hcap, hkeeps.amend (f := fun entry => (entry.1, value)) hlawful hx hkey fun _ _ => BEq.rfl⟩

theorem Keeps.removeAt (h : Keeps hasher c d m) (hx : Holds d b x) (hkey : (x.1 == key) = true)
    (content : Option V) :
    ∃ t, (removeAt b).runOn (d.assignValue b content) = (.ok (x.1, content), t) ∧
      Keeps hasher c t (strike Prod.fst m key) := by
  obtain ⟨s, rfl, rfl, hkeeps⟩ := h
  obtain ⟨unseated, hok, hunseats, rfl, hkeeps'⟩ := hkeeps.unseat (holds_ofEntries.mp hx) hkey
  exact ⟨_, runOn_removeAt hok hunseats content, _, rfl, hunseats.like.capacity, hkeeps'⟩

theorem Keeps.abandonAt (h : Keeps hasher c d m) (hx : Holds d b x) (hkey : (x.1 == key) = true)
    (content : Option V) :
    ∃ t, (abandonAt b).runOn (d.assignValue b content) = (.ok (x.1, content), t) ∧
      Stores hasher c t (strike Prod.fst m key) := by
  obtain ⟨s, rfl, rfl, hkeeps⟩ := h
  obtain ⟨unseated, hok, hunseats, rfl, hperm⟩ := hkeeps.abandon (holds_ofEntries.mp hx) hkey
  exact ⟨_, runOn_abandonAt hok hunseats content, _, rfl, hunseats.like.capacity, hunseats.inStep, hperm,
    hkeeps.distinct.strike key⟩

/-! ### Operations -/

theorem Keeps.insert (h : Keeps hasher c d m) (hlawful : hasher.Lawful) (key : K) (value : V) :
    Alike (Keeps hasher c) ((insert key value).runOn d) (insertValue ⟨c, .dictionaryFull⟩ key value m) := by
  obtain ⟨b, x, hsearch, hx, hlookup⟩ | ⟨hsearch, hlookup⟩ := h.search hlawful key
  · simp only [FixedDict.insert, insertValue, hlookup, runOn_get_bind, runOn_ok_bind, hsearch]
    exact ⟨rfl, h⟩
  · simp only [FixedDict.insert, insertValue, hlookup, runOn_get_bind, runOn_ok_bind, hsearch]
    exact (h.insertNew hlookup value).alike h none

theorem Keeps.update (h : Keeps hasher c d m) (hlawful : hasher.Lawful) (key : K) (value : V) :
    Alike (Keeps hasher c) ((update key value).runOn d) (updateValue ⟨c, .dictionaryFull⟩ key value m) := by
  obtain ⟨b, x, hsearch, hx, hlookup⟩ | ⟨hsearch, hlookup⟩ := h.search hlawful key
  · simp only [FixedDict.update, updateValue, hlookup, runOn_get_bind, runOn_ok_bind, hsearch,
      runOn_bind_ok (runOn_replaceIn hx value)]
    exact ⟨rfl, h.assignValue hlawful hx (mem_of_lookup hlookup).2 value⟩
  · simp only [FixedDict.update, updateValue, hlookup, runOn_get_bind, runOn_ok_bind, hsearch]
    exact (h.insertNew hlookup value).alike h none

theorem Keeps.replace (h : Keeps hasher c d m) (hlawful : hasher.Lawful) (key : K) (value : V) :
    Alike (Keeps hasher c) ((replace key value).runOn d) (.ok (Ledger.value m key), store key value m) := by
  obtain ⟨b, x, hsearch, hx, hlookup⟩ | ⟨hsearch, hlookup⟩ := h.search hlawful key
  · simp only [FixedDict.replace, Ledger.value, hlookup, runOn_get_bind, runOn_ok_bind, hsearch,
      runOn_bind_ok (runOn_replaceIn hx value)]
    exact ⟨rfl, h.assignValue hlawful hx (mem_of_lookup hlookup).2 value⟩
  · simp only [FixedDict.replace, Ledger.value, hlookup, runOn_get_bind, runOn_ok_bind, hsearch]
    exact ⟨rfl, by rwa [store, amend_of_lookup_none _ hlookup]⟩

theorem Keeps.tryInsert (h : Keeps hasher c d m) (hlawful : hasher.Lawful) (key : K) (value : V) :
    Alike (Keeps hasher c) ((tryInsert key value).runOn d) (tryInsertValue c key value m) := by
  obtain ⟨b, x, hsearch, hx, hlookup⟩ | ⟨hsearch, hlookup⟩ := h.search hlawful key
  · simp only [FixedDict.tryInsert, tryInsertValue, hlookup, runOn_get_bind, runOn_ok_bind, hsearch]
    exact ⟨rfl, h⟩
  · have henters := h.insertNew hlookup value
    simp only [FixedDict.tryInsert, tryInsertValue, hlookup, runOn_get_bind, runOn_ok_bind, hsearch,
      Option.isSome_none, Bool.false_eq_true, if_false]
    by_cases hroom : m.length < c
    · rw [Enters, if_pos hroom] at henters
      obtain ⟨t, bucket, hrun, hkeeps, -⟩ := henters
      simp only [h.isFull_eq_true_iff, hroom, not_true_eq_false, if_true, if_false, runOn_bind_ok hrun]
      exact ⟨rfl, hkeeps⟩
    · simp only [h.isFull_eq_true_iff, hroom, not_false_eq_true, if_true, if_false]
      exact ⟨rfl, h⟩

theorem Keeps.get? (h : Keeps hasher c d m) (hlawful : hasher.Lawful) (key : K) :
    d.get? key = .ok (Ledger.value m key) := by
  obtain ⟨b, x, hsearch, hx, hlookup⟩ | ⟨hsearch, hlookup⟩ := h.search hlawful key
  · rw [get?_of_search_some hsearch hx, Ledger.value, hlookup]
    rfl
  · rw [get?_of_search_none hsearch, Ledger.value, hlookup]
    rfl

/-- What is stored under a key is found, in whatever bucket it is. -/
theorem Keeps.get?_of_holds (h : Keeps hasher c d m) (hlawful : hasher.Lawful) (hx : Holds d b x)
    (hkey : (x.1 == key) = true) : d.get? key = .ok (some x.2) := by
  rw [h.get? hlawful]
  obtain ⟨s, rfl, -, hkeeps⟩ := h
  have hmem := Slots.mem_elements.mpr ⟨b, holds_ofEntries.mp hx⟩
  rw [Ledger.value, hkeeps.distinct.lookup_of_mem (hkeeps.elements.mem_iff.mp hmem) hkey]
  rfl

theorem Keeps.contains (h : Keeps hasher c d m) (hlawful : hasher.Lawful) (key : K) :
    d.contains key = .ok (Ledger.value m key).isSome := by
  obtain ⟨b, x, hsearch, -, hlookup⟩ | ⟨hsearch, hlookup⟩ := h.search hlawful key
  · rw [FixedDict.contains, FixedSet.contains_of_search hsearch, Ledger.value, hlookup]
    rfl
  · rw [FixedDict.contains, FixedSet.contains_of_search hsearch, Ledger.value, hlookup]
    rfl

theorem Keeps.removeEntry (h : Keeps hasher c d m) (hlawful : hasher.Lawful) (key : K) :
    Alike (Keeps hasher c) ((removeEntry key).runOn d) (Ledger.removeEntry key m) := by
  obtain ⟨b, x, hsearch, hx, hlookup⟩ | ⟨hsearch, hlookup⟩ := h.search hlawful key
  · obtain ⟨t, hrun, hkeeps⟩ := h.removeAt hx (mem_of_lookup hlookup).2 (some x.2)
    rw [assignValue_self hx] at hrun
    simp only [FixedDict.removeEntry, Ledger.removeEntry, hlookup, runOn_get_bind, runOn_ok_bind, hsearch,
      runOn_bind_ok hrun]
    exact ⟨rfl, hkeeps⟩
  · simp only [FixedDict.removeEntry, Ledger.removeEntry, hlookup, runOn_get_bind, runOn_ok_bind, hsearch]
    exact ⟨rfl, by rwa [strike_of_lookup_none hlookup]⟩

omit [EquivBEq K] in
theorem Keeps.removeAll (h : Keeps hasher c d m) :
    ∃ t, removeAll.runOn d = (.ok ⟨⟩, t) ∧ Keeps hasher c t [] := by
  refine ⟨_, runOn_modify _ _, ?_⟩
  obtain ⟨s, rfl, rfl, hkeeps⟩ := h
  by_cases hempty : s.table.isEmpty = true
  · have hnil : m = [] := by rwa [hkeeps.isEmpty, List.isEmpty_iff] at hempty
    rw [if_pos (show (ofEntries hasher s).isEmpty = true from hempty)]
    exact ⟨s, rfl, rfl, hnil ▸ hkeeps⟩
  · rw [if_neg (show ¬ (ofEntries hasher s).isEmpty = true from hempty), ofEntries_clear]
    exact ⟨s.clear, rfl, Table.capacity_clear _, hkeeps.clear⟩

theorem Keeps.extend (h : Keeps hasher c d m) (hlawful : hasher.Lawful) (entries : List (K × V)) :
    Alike (Keeps hasher c) ((extend entries).runOn d)
      (each (fun entry => updateValue ⟨c, .dictionaryFull⟩ entry.1 entry.2) entries m) :=
  forM_alike (fun entry _ _ hkeeps => hkeeps.update hlawful entry.1 entry.2) entries h

/-! ### Values made by the caller -/

section TryMemoize

variable {m : Type → Type} [Monad m] [LawfulMonad m] {hash : UInt64}

omit [EquivBEq K]

/-- The function of the caller is not asked for a value that is held. -/
theorem runOn_tryMemoize_of_hit (hsearch : d.keys.search key = .ok ⟨some b, hash⟩) (hx : Holds d b x)
    (compute : K → m (Except Fault (Except ε V))) : (tryMemoize key compute).runOn d = pure (.ok (.ok x.2), d) := by
  simp only [tryMemoize, ActionT.runOn_get_bind, ActionT.runOn_liftM_bind, hsearch, Slots.get_of_occupant hx.2]
  rfl

/-- Nor is it asked for a value that could not be stored. -/
theorem runOn_tryMemoize_full (hsearch : d.keys.search key = .ok ⟨none, hash⟩) (hfull : d.isFull = true)
    (compute : K → m (Except Fault (Except ε V))) :
    (tryMemoize key compute).runOn d = pure (.error .dictionaryFull, d) := by
  simp only [tryMemoize, ActionT.runOn_get_bind, ActionT.runOn_liftM_bind, hsearch, hfull, if_true,
    ActionT.runOn_throw_bind]

/-- Otherwise it is asked once, and the value that it makes is the one that is read back. -/
theorem runOn_tryMemoize_of_miss (hsearch : d.keys.search key = .ok ⟨none, hash⟩) (hfull : d.isFull = false)
    (hholds : ∀ value bucket t, (insertNew key value hash).runOn d = (.ok bucket, t) → Holds t bucket (key, value))
    (compute : K → m (Except Fault (Except ε V))) :
    (tryMemoize key compute).runOn d = settle (fun value => (insertNew key value hash).runOn d) d <$> compute key := by
  simp only [tryMemoize, ActionT.runOn_get_bind, ActionT.runOn_liftM_bind, hsearch, hfull, Bool.false_eq_true, if_false,
    runOn_call_bind, map_eq_pure_bind]
  congr 1
  funext computed
  rcases computed with fault | e | value
  · rfl
  · rfl
  · simp only [runOn_lift_bind, settle]
    cases hrun : (insertNew key value hash).runOn d with
    | mk outcome t =>
      cases outcome with
      | error fault => rfl
      | ok bucket =>
        have hvalue := (hholds value bucket t hrun).2
        simp only [ActionT.runOn_get_bind, ActionT.runOn_liftM_bind, Slots.get_of_occupant hvalue]
        rfl

end TryMemoize

theorem Keeps.tryMemoize (h : Keeps hasher c d m) (hlawful : hasher.Lawful) (key : K)
    (compute : K → Except Fault (Except ε V)) :
    Alike (Keeps hasher c) ((tryMemoize (m := Id) key compute).runOn d)
      (Ledger.memoize true ⟨c, .dictionaryFull⟩ key compute m) := by
  obtain ⟨b, x, hsearch, hx, hlookup⟩ | ⟨hsearch, hlookup⟩ := h.search hlawful key
  · rw [runOn_tryMemoize_of_hit hsearch hx]
    simp only [Ledger.memoize, hlookup]
    exact ⟨rfl, h⟩
  · simp only [Ledger.memoize, hlookup]
    by_cases hroom : m.length < c
    · have hfull : d.isFull = false := by
        rw [← Bool.not_eq_true, h.isFull_eq_true_iff]
        exact not_not_intro hroom
      rw [runOn_tryMemoize_of_miss hsearch hfull fun value _ _ hrun => (h.insertNew hlookup value).holds hrun,
        if_neg (by simp [hroom])]
      change Alike _ (settle _ d (compute key)) _
      rcases compute key with fault | e | value
      · exact ⟨rfl, h⟩
      · exact ⟨rfl, h⟩
      · rw [settle, ← Action.runOn_map]
        exact (h.insertNew hlookup value).alike h _
    · rw [runOn_tryMemoize_full hsearch (h.isFull_eq_true_iff.mpr hroom), if_pos (by simpa using hroom)]
      exact ⟨rfl, h⟩

theorem Keeps.memoize (h : Keeps hasher c d m) (hlawful : hasher.Lawful) (key : K)
    (compute : K → Except Fault V) :
    Alike (Keeps hasher c) ((memoize (m := Id) key compute).runOn d)
      (memoizeCertain true ⟨c, .dictionaryFull⟩ key compute m) :=
  (h.tryMemoize hlawful key fun key => Except.ok <$> compute key).certain

theorem Keeps.edit (h : Keeps hasher c d m) (hlawful : hasher.Lawful) (key : K) (f : Option V → Edited V R) :
    Alike (Keeps hasher c) ((edit (m := Id) key f).runOn d) (Ledger.edit ⟨c, .dictionaryFull⟩ key f m) := by
  obtain ⟨b, x, hsearch, hx, hlookup⟩ | ⟨hsearch, hlookup⟩ := h.search hlawful key
  · have hkey := (mem_of_lookup hlookup).2
    simp only [FixedDict.edit, Ledger.edit, hlookup, runOn_get_bind, runOn_ok_bind, hsearch, lift_eq,
      runOn_bind_ok (runOn_takeValue hx), runOn_call_bind, call_bind]
    cases (f (some x.2)).left with
    | some value =>
      simp only [runOn_bind_ok (runOn_putValue hx value)]
      exact ⟨rfl, h.assignValue hlawful hx hkey value⟩
    | none =>
      obtain ⟨t, hrun, hkeeps⟩ := h.removeAt hx hkey none
      simp only [runOn_bind_ok hrun]
      exact ⟨rfl, hkeeps⟩
  · simp only [FixedDict.edit, Ledger.edit, hlookup, runOn_get_bind, runOn_ok_bind, hsearch, runOn_call_bind,
      call_bind]
    cases (f none).answer with
    | error fault => exact ⟨rfl, h⟩
    | ok answer =>
      cases (f none).left with
      | some value => exact (h.insertNew hlookup value).alike h answer
      | none => exact ⟨rfl, h⟩

/-! ### Requests -/

def answer : DictRequest K V ε R → Action (FixedDict K V) (DictReply K V ε R)
  | .insert key value => return .value (← insert key value)
  | .update key value => return .value (← update key value)
  | .replace key value => return .value (← replace key value)
  | .get key => do return .value (← (← get).get? key)
  | .contains key => do return .flag (← (← get).contains key)
  | .memoize key compute => return .value (some (← memoize key compute))
  | .tryMemoize key compute => return .memo (← tryMemoize key compute)
  | .edit key f => return .edited (← edit key f)
  | .remove key => return .value (← remove key)
  | .removeEntry key => return .entry (← removeEntry key)
  | .clear _ => do
    removeAll
    return .done

theorem Keeps.answer (h : Keeps hasher c d m) (hlawful : hasher.Lawful) (request : DictRequest K V ε R) :
    Alike (Keeps hasher c) ((answer request).runOn d) (answerDict true ⟨c, .dictionaryFull⟩ request m) := by
  cases request with
  | insert key value => exact (h.insert hlawful key value).map _
  | update key value => exact (h.update hlawful key value).map _
  | replace key value => exact (h.replace hlawful key value).map _
  | get key =>
    simp only [FixedDict.answer, runOn_get_bind, h.get? hlawful key, runOn_ok_bind]
    exact ⟨rfl, h⟩
  | contains key =>
    simp only [FixedDict.answer, runOn_get_bind, h.contains hlawful key, runOn_ok_bind]
    exact ⟨rfl, h⟩
  | memoize key compute => exact (h.memoize hlawful key compute).map _
  | tryMemoize key compute => exact (h.tryMemoize hlawful key compute).map _
  | edit key f => exact (h.edit hlawful key f).map _
  | remove key => exact ((h.removeEntry hlawful key).map _).map _
  | removeEntry key => exact (h.removeEntry hlawful key).map _
  | clear keeping =>
    obtain ⟨t, hrun, hkeeps⟩ := h.removeAll
    simp only [FixedDict.answer, runOn_bind_ok hrun]
    exact ⟨rfl, hkeeps⟩

inductive Request (K V ε R : Type) where
  | plain (request : DictRequest K V ε R)
  | tryInsert (key : K) (value : V)
  | extend (entries : List (K × V))

def respond : Request K V ε R → FixedDict K V → Except Fault (DictReply K V ε R) × FixedDict K V
  | .plain request, d => (FixedDict.answer request).runOn d
  | .tryInsert key value, d => reply .tried ((FixedDict.tryInsert key value).runOn d)
  | .extend entries, d => reply (fun _ => .done) ((FixedDict.extend entries).runOn d)

/-- What is expected of a finite map of at most `c` entries, which notices lack of room `beforehand` or not
before a value was computed. -/
def expected (beforehand : Bool) (c : Nat) :
    Request K V ε R → List (K × V) → Except Fault (DictReply K V ε R) × List (K × V)
  | .plain request, m => answerDict beforehand ⟨c, .dictionaryFull⟩ request m
  | .tryInsert key value, m => reply .tried (tryInsertValue c key value m)
  | .extend entries, m =>
    reply (fun _ => .done) (each (fun entry => updateValue ⟨c, .dictionaryFull⟩ entry.1 entry.2) entries m)

theorem simulates (hlawful : hasher.Lawful) (c : Nat) :
    Simulates (Keeps hasher c) (respond (V := V) (ε := ε) (R := R)) (expected true c) := by
  intro request d m h
  cases request with
  | plain request => exact h.answer hlawful request
  | tryInsert key value => exact (h.tryInsert hlawful key value).reply _
  | extend entries => exact (h.extend hlawful entries).reply _

/-! ### What can be seen of a dictionary -/

structure Shows (c : Nat) (d : FixedDict K V) (m : List (K × V)) : Prop where
  entries : ∃ listed, d.iter.toList = .ok listed ∧ listed.Perm m
  distinct : Distinct Prod.fst m
  size : d.size = m.length
  size_le : d.size ≤ c
  capacity : d.capacity = c
  freeCapacity : d.freeCapacity = c - m.length
  isFull : d.isFull = true ↔ m.length = c

omit [EquivBEq K] in
theorem Keeps.shows (h : Keeps hasher c d m) : Shows c d m := by
  have hfull := h.isFull
  obtain ⟨s, rfl, rfl, hkeeps⟩ := h
  exact {
    entries := ⟨_, toList_iter hkeeps.orderly.toInStep, hkeeps.elements⟩
    distinct := hkeeps.distinct
    size := hkeeps.count
    size_le := hkeeps.orderly.count_le
    capacity := rfl
    freeCapacity := congrArg (s.table.capacity - ·) hkeeps.count
    isFull := by rw [hfull, beq_iff_eq] }

end RobinHood.FixedDict
