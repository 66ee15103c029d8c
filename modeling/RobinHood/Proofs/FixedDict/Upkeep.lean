import RobinHood.Proofs.FixedSet.Upkeep
import RobinHood.Proofs.GrowDict

/-!
# Ways of keeping dictionaries

What the operations of dictionaries need of their storage, in the two ways there are to have it: keys and
values that are the two halves of entries in step with one table; and ledgers, if equal keys have equal
hashes.
-/

namespace RobinHood.FixedDict

open RobinHood.Action RobinHood.Ledger

variable {K V : Type} [BEq K]

structure Upkeep (V : Type) (hasher : Hasher K) extends RobinHood.Upkeep (FixedDict K V) (K × V) where
  refusal_eq : refusal = .dictionaryFull
  holds_eq : Holds = FixedDict.Holds
  entries : ∀ {c d m}, Keeps c d m → ∃ s, d = ofEntries hasher s ∧ s.InStep
  vacant : ∀ {c seed d}, FixedDict.vacant c hasher seed = .ok d → Keeps c d []
  /-- A search finds an equal key, or there is none that the key may not be kept together with. -/
  search : ∀ {c d m}, Keeps c d m → ∀ key,
    (∃ b x hash, d.keys.search key = .ok ⟨some b, hash⟩ ∧ FixedDict.Holds d b x ∧ (x.1 == key) = true) ∨
    (d.keys.search key = .ok ⟨none, if d.table.isDense then 0 else d.keys.hashOf key⟩ ∧
      ∀ value, ∀ y ∈ m, Apart (key, value) y)
  assignValue : ∀ {c d m b x}, Keeps c d m → FixedDict.Holds d b x → ∀ value,
    ∃ m', Keeps c (d.assignValue b (some value)) m' ∧ m'.length = m.length
  removeAt : ∀ {c d m b x}, Keeps c d m → FixedDict.Holds d b x → ∀ content,
    ∃ t m', (removeAt b).runOn (d.assignValue b content) = (.ok (x.1, content), t) ∧ Keeps c t m' ∧
      m'.length + 1 = m.length
  abandonAt : ∀ {c d m b x}, Keeps c d m → FixedDict.Holds d b x → ∀ content,
    ∃ t m', (abandonAt b).runOn (d.assignValue b content) = (.ok (x.1, content), t) ∧ Stores c t m' ∧
      m'.length + 1 = m.length
  clear : ∀ {c d m}, Keeps c d m →
    Keeps c { keys := { d.keys with toSeating := d.keys.toSeating.clear }, values := d.values.clear } []

/-! ### In step -/

/-- Keys and values are those of the entries, in step with the table. -/
def Steady (hasher : Hasher K) (c : Nat) (d : FixedDict K V) (m : List (K × V)) : Prop :=
  ∃ s, d = ofEntries hasher s ∧ s.table.capacity = c ∧ s.InStep ∧ s.slots.elements.Perm m

theorem Stores.steady {hasher : Hasher K} {c : Nat} {d : FixedDict K V} {m : List (K × V)}
    (h : Stores hasher c d m) : Steady hasher c d m := by
  obtain ⟨s, hd, hcap, hstep, hperm, -⟩ := h
  exact ⟨s, hd, hcap, hstep, hperm⟩

section Steady

variable {hasher : Hasher K} {c : Nat} {d : FixedDict K V} {m : List (K × V)} {key : K} {x : K × V} {b : Nat}
  {hash : UInt64}

omit [BEq K]

theorem Steady.count (h : Steady hasher c d m) : d.table.count = m.length := by
  obtain ⟨s, rfl, -, hstep, hperm⟩ := h
  rw [← hperm.length_eq]
  exact hstep.count

theorem Steady.capacity (h : Steady hasher c d m) : d.table.capacity = c := by
  obtain ⟨s, rfl, hcap, -⟩ := h
  exact hcap

theorem Steady.length_le (h : Steady hasher c d m) : m.length ≤ c := by
  rw [← h.count, ← h.capacity]
  obtain ⟨s, rfl, -, hstep, -⟩ := h
  exact hstep.count_le

theorem Steady.keys (h : Steady hasher c d m) : FixedSet.Steady c d.keys (m.map Prod.fst) := by
  obtain ⟨s, rfl, hcap, hstep, hperm⟩ := h
  refine ⟨hcap, hstep.map Prod.fst, ?_⟩
  rw [ofEntries, Seating.map, Slots.elements_map]
  exact hperm.map Prod.fst

theorem Steady.insertNew (h : Steady hasher c d m) :
    Enters (Steady hasher c) Holds ⟨c, .dictionaryFull⟩ (insertNew x.1 x.2 hash) d m x := by
  have hcount := h.count
  have hle := h.length_le
  obtain ⟨s, rfl, rfl, hstep, hperm⟩ := h
  rw [Enters]
  by_cases hroom : m.length < s.table.capacity
  · rw [if_pos hroom]
    obtain ⟨seated, hok, hseats⟩ := hstep.seat (show s.table.count < _ from hcount ▸ hroom)
      (Seating.entryHash Prod.fst hasher s) x hash
    exact ⟨_, _, runOn_insertNew (show s.table.count ≠ _ from hcount ▸ hroom.ne) hok hseats,
      ⟨_, rfl, hseats.like.capacity, hseats.inStep, hseats.elements.trans (hperm.cons x)⟩,
      holds_ofEntries.mpr hseats.landed⟩
  · rw [if_neg hroom]
    exact runOn_insertNew_full (hcount.trans (Nat.le_antisymm hle (Nat.not_lt.mp hroom)))

theorem Steady.assignValue (h : Steady hasher c d m) (hx : Holds d b x) (value : V) :
    ∃ m', Steady hasher c (d.assignValue b (some value)) m' ∧ m'.length = m.length := by
  obtain ⟨s, rfl, hcap, hstep, hperm⟩ := h
  rw [holds_ofEntries] at hx
  have hlength := (Slots.elements_replace hx (x.1, value)).length_eq
  rw [List.length_cons, List.length_cons, hperm.length_eq] at hlength
  rw [ofEntries_assignValue hx]
  exact ⟨_, ⟨_, rfl, hcap, hstep.replace hx _, .refl _⟩, Nat.succ.inj hlength⟩

private theorem steady_of_unseats {s : Seating (K × V)} {unseated : Unseated (K × V)}
    (hunseats : Seating.Unseats s b unseated) (hperm : s.slots.elements.Perm m) :
    ∃ m', Steady hasher s.table.capacity (ofEntries hasher unseated.seating) m' ∧ m'.length + 1 = m.length := by
  refine ⟨_, ⟨_, rfl, hunseats.like.capacity, hunseats.inStep, .refl _⟩, ?_⟩
  rw [← hperm.length_eq, hunseats.elements.length_eq, List.length_cons]

theorem Steady.removeAt (h : Steady hasher c d m) (hx : Holds d b x) (content : Option V) :
    ∃ t m', (removeAt b).runOn (d.assignValue b content) = (.ok (x.1, content), t) ∧ Steady hasher c t m' ∧
      m'.length + 1 = m.length := by
  obtain ⟨s, rfl, rfl, hstep, hperm⟩ := h
  rw [holds_ofEntries] at hx
  obtain ⟨unseated, hok, hunseats⟩ := hstep.unseat (Seating.entryHash Prod.fst hasher s) hx
  obtain ⟨m', hsteady, hlength⟩ := steady_of_unseats hunseats hperm
  cases hx.symm.trans hunseats.element
  exact ⟨_, m', runOn_removeAt hok hunseats content, hsteady, hlength⟩

theorem Steady.abandonAt (h : Steady hasher c d m) (hx : Holds d b x) (content : Option V) :
    ∃ t m', (abandonAt b).runOn (d.assignValue b content) = (.ok (x.1, content), t) ∧ Steady hasher c t m' ∧
      m'.length + 1 = m.length := by
  obtain ⟨s, rfl, rfl, hstep, hperm⟩ := h
  rw [holds_ofEntries] at hx
  obtain ⟨unseated, hok, hunseats⟩ := hstep.abandon hx
  obtain ⟨m', hsteady, hlength⟩ := steady_of_unseats hunseats hperm
  cases hx.symm.trans hunseats.element
  exact ⟨_, m', runOn_abandonAt hok hunseats content, hsteady, hlength⟩

end Steady

def steady (hasher : Hasher K) : Upkeep V hasher where
  Keeps := Steady hasher
  Stores := Steady hasher
  Holds := Holds
  Apart _ _ := True
  refusal := .dictionaryFull
  stores h := h
  perm h hperm := by
    obtain ⟨s, hd, hcap, hstep, hs⟩ := h
    exact ⟨s, hd, hcap, hstep, hs.trans hperm⟩
  apart _ := List.pairwise_of_forall fun _ _ => trivial
  apart_symm _ := trivial
  count h := h.count
  capacity h := h.capacity
  length_le h := h.length_le
  elements h := by
    obtain ⟨s, rfl, -, hstep, hperm⟩ := h
    exact ⟨_, toList_intoIter hstep, hperm⟩
  renew {_ _ _ _} seed h hlimit := by
    obtain ⟨s, rfl, -⟩ := h
    obtain ⟨t, hvacant, hkeeps⟩ := exists_keeps_nil (V := V) hasher seed hlimit
    exact ⟨t, hvacant, hkeeps.stores.steady⟩
  insertNew h _ := h.insertNew
  refusal_eq := rfl
  holds_eq := rfl
  entries h := by
    obtain ⟨s, hd, -, hstep, -⟩ := h
    exact ⟨s, hd, hstep⟩
  vacant hvacant := (keeps_nil hvacant).stores.steady
  search h key := by
    obtain ⟨s, rfl, -, hstep, -⟩ := h
    obtain ⟨found, hfind, hfinds⟩ := hstep.find (hasher s.table.seed key) fun x => x.1 == key
    have hsearch := (search_ofEntries hasher s key).trans hfind
    cases found with
    | none => exact .inr ⟨hsearch, fun _ _ _ => trivial⟩
    | some b =>
      obtain ⟨x, hx, hkey⟩ := hfinds b rfl
      exact .inl ⟨b, x, _, hsearch, holds_ofEntries.mpr hx, hkey⟩
  assignValue h := h.assignValue
  removeAt h := h.removeAt
  abandonAt h := h.abandonAt
  clear h := by
    obtain ⟨s, rfl, hcap, hstep, -⟩ := h
    rw [ofEntries_clear]
    exact ⟨_, rfl, (Table.capacity_clear _).trans hcap, (hstep.clear fun _ => 0).toInStep, by
      rw [Seating.elements_clear]⟩

/-! ### Ledgers -/

section Lawful

variable {hasher : Hasher K} {c : Nat} {d : FixedDict K V} {m : List (K × V)} {x : K × V} {b : Nat}

theorem Keeps.probeHash (h : Keeps hasher c d m) (key : K) :
    (if d.table.isDense then 0 else d.keys.hashOf key) = d.keys.probeHash hasher key := by
  obtain ⟨s, rfl, -⟩ := h
  rfl

theorem Keeps.keys (h : Keeps hasher c d m) : FixedSet.Keeps hasher c d.keys (m.map Prod.fst) := by
  obtain ⟨s, rfl, hcap, hkeeps⟩ := h
  refine ⟨rfl, hcap, hkeeps.orderly.map Prod.fst, ?_, List.pairwise_map.mpr hkeeps.distinct⟩
  rw [ofEntries, Seating.map, Slots.elements_map]
  exact hkeeps.elements.map Prod.fst

theorem Keeps.length_strike [EquivBEq K] (h : Keeps hasher c d m) (hx : Holds d b x) :
    (strike Prod.fst m x.1).length + 1 = m.length := by
  obtain ⟨s, rfl, -, hkeeps⟩ := h
  have hmem := Slots.mem_elements.mpr ⟨b, holds_ofEntries.mp hx⟩
  exact hkeeps.distinct.length_strike (hkeeps.elements.mem_iff.mp hmem)

end Lawful

def lawful [EquivBEq K] {hasher : Hasher K} (hlawful : hasher.Lawful) : Upkeep V hasher where
  toUpkeep := LawfulBacking.upkeep hasher
  refusal_eq := rfl
  holds_eq := rfl
  entries h := by
    obtain ⟨s, hd, -, hkeeps⟩ := h
    exact ⟨s, hd, hkeeps.orderly.toInStep⟩
  vacant := keeps_nil
  search h key := by
    obtain ⟨b, x, hsearch, hx, hlookup⟩ | ⟨hsearch, hlookup⟩ := h.search hlawful key
    · exact .inl ⟨b, x, _, hsearch, hx, (mem_of_lookup hlookup).2⟩
    · rw [← h.probeHash] at hsearch
      exact .inr ⟨hsearch, fun _ y hy => BEq.symm_false (lookup_eq_none_iff.mp hlookup y hy)⟩
  assignValue h hx value := ⟨_, h.assignValue hlawful hx BEq.rfl value, List.length_map ..⟩
  removeAt h hx content := by
    obtain ⟨t, hrun, hkeeps⟩ := h.removeAt hx BEq.rfl content
    exact ⟨t, _, hrun, hkeeps, h.length_strike hx⟩
  abandonAt h hx content := by
    obtain ⟨t, hrun, hstores⟩ := h.abandonAt hx BEq.rfl content
    exact ⟨t, _, hrun, hstores, h.length_strike hx⟩
  clear h := by
    obtain ⟨s, rfl, hcap, hkeeps⟩ := h
    rw [ofEntries_clear]
    exact ⟨_, rfl, (Table.capacity_clear _).trans hcap, hkeeps.clear⟩

end RobinHood.FixedDict
