import RobinHood.Proofs.Aftermath
import RobinHood.Proofs.Growable.Order
import RobinHood.Proofs.Seating.Dense
import RobinHood.Proofs.Traversals

/-!
# How small containers arrange their elements

A call to a small container does with its elements what it does with a list: a new element comes last, and the last one
takes the place of one that is removed. It makes no difference by which call an element comes or goes, nor whether the
elements move to another storage on the way.
-/

namespace RobinHood

open RobinHood.Action

variable {K V ε R : Type}

/-! ### What becomes of the list -/

section Arrange

variable [BEq K]

/-- The members, in order, after a call to a set that takes no more of them than the limit. -/
def MemberCall.arrange (limit : Nat) (l : List K) (call : MemberCall K) : List K :=
  match l.findIdx? (· == call.key), call with
  | some _, .insert _ => l
  | some i, .update key => l.set i key
  | some i, .remove _ => swapRemove l i
  | none, .insert key | none, .update key => appendWithin limit l key
  | none, .remove _ => l

def EntryCall.arrange (limit : Nat) (l : List (K × V)) (call : EntryCall K V ε R) : List (K × V) :=
  match l.findIdx? (·.1 == call.key), call.leaves ((l.find? (·.1 == call.key)).map Prod.snd) with
  | some i, some value => l.modify i fun x => (x.1, value)
  | some i, none => swapRemove l i
  | none, some value => appendWithin limit l (call.key, value)
  | none, none => l

end Arrange

/-! ### Sets -/

namespace FixedSet

variable {s : FixedSet K} {l : List K} {b : Nat} {x : K}

theorem elements_eq (h : s.toSeating.InStep) : Backing.elements s = .ok s.slots.elements :=
  toList_intoIter h

theorem isDense_of_le (h : s.toSeating.InStep) (hsmall : s.capacity ≤ Table.denseLimit) : s.table.isDense = true :=
  h.shaped.dense_iff.mpr hsmall

theorem elements_removeAt (h : s.toSeating.InStep) (hdense : s.table.isDense = true)
    (hx : s.slots.occupant b = some x) :
    ∃ t, (removeAt b).runOn s = (.ok x, t) ∧ Backing.elements t = .ok (swapRemove s.slots.elements b) := by
  obtain ⟨unseated, hok, hunseats⟩ := h.unseat s.hashOf hx
  cases hx.symm.trans hunseats.element
  refine ⟨_, runOn_removeAt hok, ?_⟩
  rw [← h.elements_unseat hdense hok hunseats]
  exact elements_eq (s := { s with toSeating := unseated.seating }) hunseats.inStep

theorem elements_abandonAt (h : s.toSeating.InStep) (hdense : s.table.isDense = true)
    (hx : s.slots.occupant b = some x) :
    ∃ t, (abandonAt b).runOn s = (.ok x, t) ∧ Backing.elements t = .ok (swapRemove s.slots.elements b) := by
  obtain ⟨unseated, hok, hunseats⟩ := h.abandon hx
  cases hx.symm.trans hunseats.element
  refine ⟨_, runOn_abandonAt hok, ?_⟩
  rw [← h.elements_abandon hdense hok hunseats]
  exact elements_eq (s := { s with toSeating := unseated.seating }) hunseats.inStep

variable [BEq K]

theorem appends (hasher : Hasher K) : (steady hasher).Appends where
  apart _ _ := trivial
  insertNew {c s m listed x hash b t} h hsmall hlisted hrun := by
    have hstep := (steady hasher).inStep h
    have hdense := isDense_of_le hstep (((steady hasher).capacity h).trans_le hsmall)
    obtain rfl := Except.ok.inj (hlisted.symm.trans (elements_eq hstep))
    by_cases hroom : s.table.count < s.table.capacity
    · obtain ⟨seated, hok, hseats⟩ := hstep.seat hroom s.hashOf x hash
      cases hrun.symm.trans (runOn_insertNew hroom.ne hok)
      rw [← hstep.elements_seat hdense hok hseats]
      exact elements_eq (s := { s with toSeating := seated.seating }) hseats.inStep
    · cases hrun.symm.trans (runOn_insertNew_full (Nat.le_antisymm hstep.count_le (Nat.not_lt.mp hroom)))

end FixedSet

namespace AnySet

variable {s : AnySet K} {l : List K} {b : Nat} {x key : K}

theorem storage_withStorage (s : AnySet K) (storage : FixedSet K) : (s.withStorage storage).storage = storage := by
  cases s <;> rfl

def limit : AnySet K → Nat
  | .fixed s => s.capacity
  | .growing _ => Scale.limit

variable [BEq K] {hasher : Hasher K}

theorem Reachable.elements_enter (hs : s.Reachable hasher) (hsmall : s.storage.capacity ≤ Table.denseLimit)
    (hafter : (s.enter key 0).storage.capacity ≤ Table.denseLimit) (hlisted : Backing.elements s.storage = .ok l) :
    Backing.elements (s.enter key 0).storage = .ok (appendWithin s.limit l key) := by
  cases s with
  | fixed s =>
    obtain ⟨c, m, h⟩ := hs.steady
    obtain rfl : s.capacity = c := h.capacity
    exact (FixedSet.appends hasher).place h hsmall h.insertNew hlisted
  | growing g =>
    obtain ⟨m, h⟩ := hs.steady
    have hhash : g.placementHash key = 0 := if_pos (FixedSet.isDense_of_le hs.inStep hsmall)
    rw [enter, ← hhash] at hafter ⊢
    exact (FixedSet.appends hasher).enter h hafter hlisted

theorem Reachable.elements_removeAt (hs : s.Reachable hasher) (hsmall : s.storage.capacity ≤ Table.denseLimit)
    (hafter : (s.removeAt b).storage.capacity ≤ Table.denseLimit) (hx : s.storage.slots.occupant b = some x) :
    Backing.elements (s.removeAt b).storage = .ok (swapRemove s.storage.slots.elements b) := by
  have hstep := hs.inStep
  have hdense := FixedSet.isDense_of_le hstep hsmall
  have hremove := FixedSet.elements_removeAt hstep hdense hx
  cases s with
  | fixed s =>
    obtain ⟨t, hrun, hlisted⟩ := hremove
    rw [removeAt, show (FixedSet.removeAt b).runOn s = _ from hrun]
    exact hlisted
  | growing g =>
    obtain ⟨m, h⟩ := hs.steady
    exact (FixedSet.appends hasher).takeOut h ((FixedSet.steady hasher).removeAt h.keeps hx)
      ((FixedSet.steady hasher).abandonAt h.keeps hx) hremove (FixedSet.elements_abandonAt hstep hdense hx) hafter

/-- A call to a set that is small before and after does with its members what it does with a list. -/
theorem Reachable.elements_after (hs : s.Reachable hasher) {call : MemberCall K}
    (hsmall : s.storage.capacity ≤ Table.denseLimit) (hafter : (s.after call).storage.capacity ≤ Table.denseLimit)
    (hlisted : Backing.elements s.storage = .ok l) :
    Backing.elements (s.after call).storage = .ok (call.arrange s.limit l) := by
  have hstep := hs.inStep
  have hdense := FixedSet.isDense_of_le hstep hsmall
  obtain rfl := Except.ok.inj (hlisted.symm.trans (FixedSet.elements_eq hstep))
  have hsearch : s.storage.search call.key = _ := hstep.find_of_dense hdense _ _
  unfold MemberCall.arrange
  cases hfound : s.storage.slots.elements.findIdx? (· == call.key) with
  | none =>
    rw [hfound] at hsearch
    cases call with
    | insert key =>
      rw [show s.after (.insert key) = _ from after_insert_of_miss hsearch] at hafter ⊢
      exact hs.elements_enter hsmall hafter hlisted
    | update key =>
      rw [show s.after (.update key) = _ from after_update_of_miss hsearch] at hafter ⊢
      exact hs.elements_enter hsmall hafter hlisted
    | remove key =>
      rw [show s.after (.remove key) = s from after_remove_of_miss hsearch]
      exact hlisted
  | some b =>
    rw [hfound] at hsearch
    obtain ⟨hb, -⟩ := List.findIdx?_eq_some_iff_getElem.mp hfound
    have hx := (hstep.occupant_of_dense hdense b).trans (List.getElem?_eq_getElem hb)
    cases call with
    | insert key =>
      rw [show s.after (.insert key) = s from after_insert_of_hit hsearch]
      exact hlisted
    | update key =>
      have hreplaced := FixedSet.elements_eq (s := { s.storage with slots := s.storage.slots.assign b (some key) })
        (hstep.replace hx key)
      rw [hstep.elements_replace hdense hx key] at hreplaced
      rw [show s.after (.update key) = _ from after_update_of_hit hsearch hx, storage_withStorage]
      exact hreplaced
    | remove key =>
      rw [show s.after (.remove key) = _ from after_remove_of_hit hsearch] at hafter ⊢
      exact hs.elements_removeAt hsmall hafter hx

end AnySet

/-! ### Dictionaries -/

namespace FixedDict

variable {hasher : Hasher K} {s : Seating (K × V)} {b : Nat} {x : K × V}

theorem elements_ofEntries (h : s.InStep) : Backing.elements (ofEntries hasher s) = .ok s.slots.elements :=
  toList_intoIter h

theorem elements_removeAt (hasher : Hasher K) (h : s.InStep) (hdense : s.table.isDense = true)
    (hx : s.slots.occupant b = some x) :
    ∃ t, (removeAt b).runOn (ofEntries hasher s) = (.ok (x.1, some x.2), t) ∧
      Backing.elements t = .ok (swapRemove s.slots.elements b) := by
  obtain ⟨unseated, hok, hunseats⟩ := h.unseat (Seating.entryHash Prod.fst hasher s) hx
  cases hx.symm.trans hunseats.element
  have hself : (ofEntries hasher s).assignValue b (some unseated.element.2) = ofEntries hasher s :=
    assignValue_self (holds_ofEntries.mpr hx)
  rw [← hself]
  refine ⟨_, runOn_removeAt hok hunseats _, ?_⟩
  rw [← h.elements_unseat hdense hok hunseats]
  exact elements_ofEntries hunseats.inStep

theorem elements_abandonAt (hasher : Hasher K) (h : s.InStep) (hdense : s.table.isDense = true)
    (hx : s.slots.occupant b = some x) :
    ∃ t, (abandonAt b).runOn (ofEntries hasher s) = (.ok (x.1, some x.2), t) ∧
      Backing.elements t = .ok (swapRemove s.slots.elements b) := by
  obtain ⟨unseated, hok, hunseats⟩ := h.abandon hx
  cases hx.symm.trans hunseats.element
  have hself : (ofEntries hasher s).assignValue b (some unseated.element.2) = ofEntries hasher s :=
    assignValue_self (holds_ofEntries.mpr hx)
  rw [← hself]
  refine ⟨_, runOn_abandonAt hok hunseats _, ?_⟩
  rw [← h.elements_abandon hdense hok hunseats]
  exact elements_ofEntries hunseats.inStep

variable [BEq K]

theorem appends (hasher : Hasher K) : (steady hasher : Upkeep V hasher).Appends where
  apart _ _ := trivial
  insertNew {c d m listed x hash b t} h hsmall hlisted hrun := by
    obtain ⟨s, rfl, rfl, hstep, hperm⟩ := h
    have hdense := hstep.shaped.dense_iff.mpr hsmall
    obtain rfl := Except.ok.inj (hlisted.symm.trans (elements_ofEntries hstep))
    by_cases hroom : s.table.count < s.table.capacity
    · obtain ⟨seated, hok, hseats⟩ := hstep.seat hroom (Seating.entryHash Prod.fst hasher s) x hash
      cases hrun.symm.trans (runOn_insertNew hroom.ne hok hseats)
      rw [← hstep.elements_seat hdense hok hseats]
      exact elements_ofEntries hseats.inStep
    · cases hrun.symm.trans (runOn_insertNew_full (Nat.le_antisymm hstep.count_le (Nat.not_lt.mp hroom)))

end FixedDict

namespace AnyDict

variable {d : AnyDict K V} {l : List (K × V)} {b : Nat} {x : K × V}

theorem storage_withStorage (d : AnyDict K V) (storage : FixedDict K V) :
    (d.withStorage storage).storage = storage := by
  cases d <;> rfl

def limit : AnyDict K V → Nat
  | .fixed d => d.capacity
  | .growing _ => Scale.limit

variable [BEq K] {hasher : Hasher K}

theorem Reachable.elements_enter (hd : d.Reachable hasher) (hsmall : d.storage.capacity ≤ Table.denseLimit)
    (hafter : (d.enter x 0).storage.capacity ≤ Table.denseLimit) (hlisted : Backing.elements d.storage = .ok l) :
    Backing.elements (d.enter x 0).storage = .ok (appendWithin d.limit l x) := by
  cases d with
  | fixed d =>
    obtain ⟨c, m, h⟩ := hd.keptBy (FixedDict.steady hasher)
    obtain rfl : d.capacity = c := h.capacity
    exact (FixedDict.appends hasher).place h hsmall h.insertNew hlisted
  | growing g =>
    obtain ⟨m, h⟩ := hd.keptBy (FixedDict.steady hasher)
    have hkeys := AnySet.Reachable.keys hd.storage
    have hhash : g.placementHash x = 0 := if_pos (FixedSet.isDense_of_le hkeys.inStep hsmall)
    rw [enter, ← hhash] at hafter ⊢
    exact (FixedDict.appends hasher).enter h hafter hlisted

theorem Reachable.elements_removeAt {s : Seating (K × V)} (hd : d.Reachable hasher)
    (hentries : d.storage = FixedDict.ofEntries hasher s) (hstep : s.InStep) (hdense : s.table.isDense = true)
    (hafter : (d.removeAt b).storage.capacity ≤ Table.denseLimit) (hx : s.slots.occupant b = some x) :
    Backing.elements (d.removeAt b).storage = .ok (swapRemove s.slots.elements b) := by
  have hremove := FixedDict.elements_removeAt hasher hstep hdense hx
  have habandon := FixedDict.elements_abandonAt hasher hstep hdense hx
  rw [← hentries] at hremove habandon
  have hholds : d.storage.Holds b x := hentries ▸ FixedDict.holds_ofEntries.mpr hx
  cases d with
  | fixed d =>
    obtain ⟨t, hrun, hlisted⟩ := hremove
    rw [removeAt, show (FixedDict.removeAt b).runOn d = _ from hrun]
    exact hlisted
  | growing g =>
    obtain ⟨m, h⟩ := hd.keptBy (FixedDict.steady hasher)
    have hself : g.storage.assignValue b (some x.2) = g.storage := FixedDict.assignValue_self hholds
    have htaken := (FixedDict.steady hasher).removeAt h.keeps hholds (some x.2)
    have hleft := (FixedDict.steady hasher).abandonAt h.keeps hholds (some x.2)
    rw [hself] at htaken hleft
    exact (FixedDict.appends hasher).takeOut h htaken hleft hremove habandon hafter

/-- A call about an entry of a dictionary that is small before and after does with its entries what it does with a
list. -/
theorem Reachable.elements_after (hd : d.Reachable hasher) {call : EntryCall K V ε R}
    (hsmall : d.storage.capacity ≤ Table.denseLimit)
    (hafter : (d.after (.entry call)).storage.capacity ≤ Table.denseLimit)
    (hlisted : Backing.elements d.storage = .ok l) :
    Backing.elements (d.after (.entry call)).storage = .ok (call.arrange d.limit l) := by
  obtain ⟨s, hentries, hstep⟩ := hd.entries
  have hdense : s.table.isDense = true := by
    rw [hentries] at hsmall
    exact hstep.shaped.dense_iff.mpr hsmall
  have hsame := hlisted
  rw [hentries] at hsame
  obtain rfl := Except.ok.inj (hsame.symm.trans (FixedDict.elements_ofEntries hstep))
  have hsearch : d.storage.keys.search call.key = .ok ⟨s.slots.elements.findIdx? (·.1 == call.key), 0⟩ := by
    rw [hentries, FixedDict.search_ofEntries]
    exact hstep.find_of_dense hdense _ _
  unfold EntryCall.arrange
  rw [List.find?_eq_bind_findIdx?_getElem?]
  cases hfound : s.slots.elements.findIdx? (·.1 == call.key) with
  | none =>
    rw [hfound] at hsearch
    rw [hd.after_entry_of_miss hsearch] at hafter ⊢
    rw [Option.bind_none, Option.map_none]
    cases hleaves : call.leaves none with
    | none => exact hlisted
    | some value =>
      rw [hleaves] at hafter
      exact hd.elements_enter hsmall hafter hlisted
  | some b =>
    rw [hfound] at hsearch
    obtain ⟨hb, -⟩ := List.findIdx?_eq_some_iff_getElem.mp hfound
    have hx := (hstep.occupant_of_dense hdense b).trans (List.getElem?_eq_getElem hb)
    have hholds : d.storage.Holds b _ := hentries ▸ FixedDict.holds_ofEntries.mpr hx
    rw [hd.after_entry_of_hit hsearch hholds] at hafter ⊢
    rw [Option.bind_some, List.getElem?_eq_getElem hb, Option.map_some]
    cases hleaves : call.leaves (some (s.slots.elements[b]).2) with
    | none =>
      rw [hleaves] at hafter
      exact hd.elements_removeAt hentries hstep hdense hafter hx
    | some value =>
      have hkept := hstep.replace hx (s.slots.elements[b].1, value)
      have hreplaced : Backing.elements (FixedDict.ofEntries hasher _) = _ := FixedDict.elements_ofEntries hkept
      rw [hstep.elements_replace hdense hx, ← FixedDict.ofEntries_assignValue hx, ← hentries] at hreplaced
      refine (congrArg Backing.elements (storage_withStorage d _)).trans (hreplaced.trans ?_)
      exact congrArg Except.ok (List.modify_eq_set_get (fun x => (x.1, value)) hb).symm

end AnyDict

end RobinHood
