import RobinHood.Proofs.Arrangement
import RobinHood.Proofs.Overflows

/-!
# Small containers are lists

As long as its capacity is at most fifteen, a container keeps its elements in the first buckets, in an order in which
no hash has a part. In a run of calls it grows and shrinks as it otherwise would, and the order is that of a list to
which the same calls are made.
-/

namespace RobinHood

open RobinHood.Action

variable {K V ε R : Type}

/-! ### What can be seen of a list -/

namespace FixedSet

variable {s : FixedSet K}

/-- What can be seen of a set that has the members in its first buckets, in this order. -/
structure Lists (s : FixedSet K) (l : List K) : Prop where
  size : s.size = l.length
  isOccupied : ∀ b, s.table.isOccupied b = decide (b < l.length)
  memberAt : ∀ b, s.memberAt b = (l[b]?).elim (.error .indexOutOfBounds) .ok
  iter : s.iter.toList = .ok l

theorem lists_elements (h : s.toSeating.InStep) (hsmall : s.capacity ≤ Table.denseLimit) :
    s.Lists s.slots.elements := by
  have hdense := isDense_of_le h hsmall
  refine ⟨h.count, h.isOccupied_of_dense hdense, fun b => ?_, toList_iter h⟩
  have hx := h.occupant_of_dense hdense b
  rw [FixedSet.memberAt, checkIndex, h.occupied]
  cases hb : s.slots.elements[b]? with
  | none =>
    rw [hx, hb]
    rfl
  | some x =>
    rw [hx, hb]
    exact Slots.get_of_occupant (hx.trans hb)

end FixedSet

namespace FixedDict

variable {hasher : Hasher K} {s : Seating (K × V)}

structure Lists (d : FixedDict K V) (l : List (K × V)) : Prop where
  size : d.size = l.length
  isOccupied : ∀ b, d.table.isOccupied b = decide (b < l.length)
  entryAt : ∀ b, d.entryAt b = (l[b]?).elim (.error .indexOutOfBounds) .ok
  iter : d.iter.toList = .ok l

theorem lists_elements (h : s.InStep) (hdense : s.table.isDense = true) :
    (ofEntries hasher s).Lists s.slots.elements := by
  refine ⟨h.count, h.isOccupied_of_dense hdense, fun b => ?_, toList_iter h⟩
  have hx := h.occupant_of_dense hdense b
  rw [FixedDict.entryAt, FixedSet.checkIndex, show (ofEntries hasher s).keys.table.isOccupied b = _ from h.occupied b]
  cases hb : s.slots.elements[b]? with
  | none =>
    rw [hx, hb]
    rfl
  | some x =>
    rw [hx, hb]
    exact entryIn_of_holds (holds_ofEntries.mpr (hx.trans hb))

end FixedDict

/-! ### Runs -/

/-- Containers of a kind, and what is made of a list of elements by the calls to them. -/
structure Kind (σ ι α : Type) where
  after : σ → ι → σ
  /-- How many elements a container has at the most. -/
  limit : σ → Nat
  capacity : σ → Nat
  Lists : σ → List α → Prop
  arrange : (limit : Nat) → List α → ι → List α

namespace Kind

variable {σ ι α : Type} {k : Kind σ ι α} {s t : σ} {l : List α} {calls : List ι} {P Q : σ → Prop}

/-- The container that the calls leave, one after the other. -/
def afterAll (k : Kind σ ι α) (s : σ) (calls : List ι) : σ :=
  calls.foldl k.after s

/-- The capacity is at most fifteen at the beginning and after every call. -/
def StaysSmall (k : Kind σ ι α) (s : σ) (calls : List ι) : Prop :=
  ∀ n, k.capacity (k.afterAll s (calls.take n)) ≤ Table.denseLimit

/-- The containers have the same elements in the same order, and the same capacity and limit. -/
structure Twin (k : Kind σ ι α) (s t : σ) : Prop where
  limit : k.limit s = k.limit t
  capacity : k.capacity s = k.capacity t
  listed : ∃ l, k.Lists s l ∧ k.Lists t l

/-- A call to a container that has the property does what it does to a list, if it is small before and after. -/
structure Arranges (k : Kind σ ι α) (P : σ → Prop) : Prop where
  after : ∀ {s call}, P s → P (k.after s call)
  limit : ∀ {s call}, P s → k.limit (k.after s call) = k.limit s
  lists : ∀ {s call l}, P s → k.capacity s ≤ Table.denseLimit → k.capacity (k.after s call) ≤ Table.denseLimit →
    k.Lists s l → k.Lists (k.after s call) (k.arrange (k.limit s) l call)

/-- What one call keeps of two things that it changes, if the first is small before and after, all calls keep. -/
theorem foldl_keeps {τ : Type} {follow : τ → ι → τ} {Related : σ → τ → Prop}
    (hafter : ∀ s t call, k.capacity s ≤ Table.denseLimit → k.capacity (k.after s call) ≤ Table.denseLimit →
      Related s t → Related (k.after s call) (follow t call)) (calls : List ι) :
    ∀ {s : σ} {t : τ}, k.StaysSmall s calls → Related s t → Related (k.afterAll s calls) (calls.foldl follow t) := by
  induction calls with
  | nil => exact fun _ hrelated => hrelated
  | cons call calls ih =>
    intro s t hsmall hrelated
    exact ih (fun n => hsmall (n + 1)) (hafter s t call (hsmall 0) (hsmall 1) hrelated)

theorem Arranges.lists_afterAll (h : k.Arranges P) (hs : P s) (hsmall : k.StaysSmall s calls) (hl : k.Lists s l) :
    k.Lists (k.afterAll s calls) (calls.foldl (k.arrange (k.limit s)) l) := by
  have hafter : ∀ t l call, k.capacity t ≤ Table.denseLimit → k.capacity (k.after t call) ≤ Table.denseLimit →
      P t ∧ k.limit t = k.limit s ∧ k.Lists t l →
      P (k.after t call) ∧ k.limit (k.after t call) = k.limit s ∧
        k.Lists (k.after t call) (k.arrange (k.limit s) l call) := by
    rintro t l call hbefore hafter ⟨ht, hlimit, hl⟩
    exact ⟨h.after ht, (h.limit ht).trans hlimit, hlimit ▸ h.lists ht hbefore hafter hl⟩
  exact (foldl_keeps hafter calls hsmall ⟨hs, rfl, hl⟩).2.2

/-- Twins go the same way, if a call makes the same of their capacities. -/
theorem Arranges.twin_afterAll (h : k.Arranges P) (h' : k.Arranges Q)
    (hcapacity : ∀ s t call, P s → Q t → k.capacity s ≤ Table.denseLimit → k.Twin s t →
      k.capacity (k.after s call) = k.capacity (k.after t call))
    (hs : P s) (ht : Q t) (htwin : k.Twin s t) (hsmall : k.StaysSmall s calls) :
    k.Twin (k.afterAll s calls) (k.afterAll t calls) := by
  have hafter : ∀ s t call, k.capacity s ≤ Table.denseLimit → k.capacity (k.after s call) ≤ Table.denseLimit →
      P s ∧ Q t ∧ k.Twin s t →
      P (k.after s call) ∧ Q (k.after t call) ∧ k.Twin (k.after s call) (k.after t call) := by
    rintro s t call hbefore hafter ⟨hs, ht, htwin⟩
    have hsame := hcapacity s t call hs ht hbefore htwin
    obtain ⟨l, hl, hl'⟩ := htwin.listed
    refine ⟨h.after hs, h'.after ht, (h.limit hs).trans (htwin.limit.trans (h'.limit ht).symm), hsame,
      k.arrange (k.limit s) l call, h.lists hs hbefore hafter hl, ?_⟩
    rw [htwin.limit]
    exact h'.lists ht (htwin.capacity ▸ hbefore) (hsame ▸ hafter) hl'
  exact (foldl_keeps hafter calls hsmall ⟨hs, ht, htwin⟩).2.2

instance (k : Kind σ ι α) (s : σ) (calls : List ι) : Decidable (k.StaysSmall s calls) :=
  decidable_of_iff (∀ n < calls.length + 1, k.capacity (k.afterAll s (calls.take n)) ≤ Table.denseLimit) <| by
    refine ⟨fun h n => ?_, fun h n _ => h n⟩
    by_cases hn : n < calls.length + 1
    · exact h n hn
    · rw [List.take_of_length_le (by omega), ← calls.take_length]
      exact h calls.length (Nat.lt_succ_self _)

theorem StaysSmall.take (h : k.StaysSmall s calls) (n : Nat) : k.StaysSmall s (calls.take n) := fun i => by
  rw [List.take_take]
  exact h _

/-- As long as they are small, the containers that can come about behave as lists do. The hasher, which is what they
can come about with, has no part in it. -/
structure LikeLists {H : Type} (k : Kind σ ι α) (Reachable : H → σ → Prop) : Prop where
  /-- A run of calls does with the elements what it does with the list that they are. -/
  run : ∀ {h s}, Reachable h s → k.capacity s ≤ Table.denseLimit → ∃ l, k.Lists s l ∧
    ∀ calls, k.StaysSmall s calls → k.Lists (k.afterAll s calls) (calls.foldl (k.arrange (k.limit s)) l)
  /-- With whatever hashers, a run of calls leaves the same capacity and the same order. -/
  twins : ∀ {h h' s t}, Reachable h s → Reachable h' t → k.Twin s t → ∀ calls, k.StaysSmall s calls →
    k.StaysSmall t calls ∧ k.Twin (k.afterAll s calls) (k.afterAll t calls)

theorem likeLists {H : Type} {Reachable : H → σ → Prop} (harranges : ∀ h, k.Arranges (Reachable h))
    (hlists : ∀ h s, Reachable h s → k.capacity s ≤ Table.denseLimit → ∃ l, k.Lists s l)
    (hcapacity : ∀ h h' s t call, Reachable h s → Reachable h' t → k.capacity s ≤ Table.denseLimit → k.Twin s t →
      k.capacity (k.after s call) = k.capacity (k.after t call)) : k.LikeLists Reachable where
  run {h s} hs hsmall := by
    obtain ⟨l, hl⟩ := hlists h s hs hsmall
    exact ⟨l, hl, fun calls hsmall => (harranges h).lists_afterAll hs hsmall hl⟩
  twins {h h' s t} hs ht htwin calls hsmall := by
    have hafter : ∀ calls, k.StaysSmall s calls → k.Twin (k.afterAll s calls) (k.afterAll t calls) := fun calls =>
      (harranges h).twin_afterAll (harranges h') (fun s t call => hcapacity h h' s t call) hs ht htwin
    refine ⟨fun n => ?_, hafter calls hsmall⟩
    rw [← (hafter _ (hsmall.take n)).capacity]
    exact hsmall n

end Kind

/-! ### Sets -/

namespace AnySet

variable [BEq K] {hasher hasher' : Hasher K} {s t : AnySet K} {l : List K}

variable (K) in
def kind : Kind (AnySet K) (MemberCall K) K where
  after s call := s.after call
  limit := limit
  capacity s := s.storage.capacity
  Lists s l := s.storage.Lists l
  arrange := MemberCall.arrange

theorem Reachable.after (hs : s.Reachable hasher) (call : MemberCall K) : (s.after call).Reachable hasher := by
  cases s with
  | fixed s => exact hs.callFixed (.member call : FixedSet.Call K Empty)
  | growing g => exact hs.callGrowing (.member call : GrowSet.Call K Empty)

theorem Reachable.limit_after (hs : s.Reachable hasher) (call : MemberCall K) : (s.after call).limit = s.limit := by
  cases s with
  | fixed s =>
    obtain ⟨c, m, h⟩ := hs.steady
    obtain ⟨m', h'⟩ := (FixedSet.carryOut_safe ⟨m, h⟩ (.member call : FixedSet.Call K Empty)).after
    exact h'.capacity.trans h.capacity.symm
  | growing g => rfl

theorem Reachable.lists_iff (hs : s.Reachable hasher) (hsmall : s.storage.capacity ≤ Table.denseLimit) :
    s.storage.Lists l ↔ Backing.elements s.storage = .ok l := by
  rw [FixedSet.elements_eq hs.inStep, Except.ok.injEq]
  constructor
  · intro hl
    exact Except.ok.inj ((FixedSet.toList_iter hs.inStep).symm.trans hl.iter)
  · rintro rfl
    exact FixedSet.lists_elements hs.inStep hsmall

theorem arranges (hasher : Hasher K) : (kind K).Arranges (Reachable hasher) where
  after hs := hs.after _
  limit hs := hs.limit_after _
  lists hs hsmall hafter hl :=
    ((hs.after _).lists_iff hafter).mpr (hs.elements_after hsmall hafter ((hs.lists_iff hsmall).mp hl))

theorem Reachable.contains_eq (hs : s.Reachable hasher) (hsmall : s.storage.capacity ≤ Table.denseLimit)
    (hl : s.storage.Lists l) (key : K) : s.storage.contains key = .ok (l.findIdx? (· == key)).isSome := by
  obtain rfl := Except.ok.inj (hl.iter.symm.trans (FixedSet.toList_iter hs.inStep))
  have hsearch : s.storage.search key = _ :=
    hs.inStep.find_of_dense (FixedSet.isDense_of_le hs.inStep hsmall) _ _
  rw [FixedSet.contains_of_search hsearch]

/-- The hasher has no part in what a call makes of the capacity. -/
theorem Reachable.capacity_after (hs : s.Reachable hasher) (ht : t.Reachable hasher')
    (hsmall : s.storage.capacity ≤ Table.denseLimit) (call : MemberCall K) (htwin : (kind K).Twin s t) :
    (s.after call).storage.capacity = (t.after call).storage.capacity := by
  obtain ⟨hlimit, hcapacity, l, hl, hl'⟩ := htwin
  have hlimit : s.limit = t.limit := hlimit
  have hcapacity : s.storage.capacity = t.storage.capacity := hcapacity
  have hcontains := hs.contains_eq hsmall hl call.key
  have hcontains' := ht.contains_eq (hcapacity ▸ hsmall) hl' call.key
  have hdense : Table.denseLimit < Scale.limit := by decide
  -- The limit of a fixed set is its capacity, which is too small here to be that of a growing one.
  cases s with
  | fixed s =>
    cases t with
    | fixed t => exact (hs.limit_after call).trans (hcapacity.trans (ht.limit_after call).symm)
    | growing t => exact absurd hsmall (Nat.not_le.mpr (hdense.trans_eq hlimit.symm))
  | growing g =>
    cases t with
    | fixed t => exact absurd (hcapacity.symm.trans_le hsmall) (Nat.not_le.mpr (hdense.trans_eq hlimit))
    | growing g' =>
      obtain ⟨m, hheld⟩ := hs.steady
      obtain ⟨before, hbefore, heffect⟩ :=
        (GrowSet.carryOut_safe ⟨m, hheld⟩ (.member call : GrowSet.Call K Empty)).after.2
      obtain ⟨before', hbefore', heffect'⟩ :=
        (GrowSet.carryOut_safe ht.steady (.member call : GrowSet.Call K Empty)).after.2
      cases hbefore.symm.trans hcontains
      cases hbefore'.symm.trans hcontains'
      exact heffect.capacity_eq heffect' hheld.onSequence (hl.size.trans hl'.size.symm) hcapacity

theorem likeLists : (kind K).LikeLists fun hasher => Reachable hasher :=
  Kind.likeLists arranges (fun _ _ hs hsmall => ⟨_, FixedSet.lists_elements hs.inStep hsmall⟩)
    fun _ _ _ _ call hs ht hsmall => hs.capacity_after ht hsmall call

end AnySet

/-! ### Dictionaries -/

namespace AnyDict

variable [BEq K] {hasher hasher' : Hasher K} {d e : AnyDict K V} {l : List (K × V)}

variable (K V ε R) in
def kind : Kind (AnyDict K V) (EntryCall K V ε R) (K × V) where
  after d call := d.after (.entry call)
  limit := limit
  capacity d := d.storage.capacity
  Lists d l := d.storage.Lists l
  arrange := EntryCall.arrange

theorem Reachable.after (hd : d.Reachable hasher) (call : EntryCall K V ε R) :
    (d.after (.entry call)).Reachable hasher := by
  cases d with
  | fixed d => exact hd.callFixed (.entry call)
  | growing g => exact hd.callGrowing (.entry call)

theorem Reachable.limit_after (hd : d.Reachable hasher) (call : EntryCall K V ε R) :
    (d.after (.entry call)).limit = d.limit := by
  cases d with
  | fixed d =>
    obtain ⟨c, m, h⟩ := hd.keptBy (FixedDict.steady hasher)
    obtain ⟨m', h'⟩ := (FixedDict.carryOut_safe ⟨m, h⟩ (.entry call)).after
    exact ((FixedDict.steady hasher).capacity h').trans h.capacity.symm
  | growing g => rfl

theorem Reachable.lists_iff (hd : d.Reachable hasher) (hsmall : d.storage.capacity ≤ Table.denseLimit) :
    d.storage.Lists l ↔ Backing.elements d.storage = .ok l := by
  obtain ⟨s, hentries, hstep⟩ := hd.entries
  rw [hentries] at hsmall ⊢
  rw [FixedDict.elements_ofEntries hstep, Except.ok.injEq]
  constructor
  · intro hl
    exact Except.ok.inj ((FixedDict.toList_iter hstep).symm.trans hl.iter)
  · rintro rfl
    exact FixedDict.lists_elements hstep (hstep.shaped.dense_iff.mpr hsmall)

theorem arranges (hasher : Hasher K) : (kind K V ε R).Arranges (Reachable hasher) where
  after hd := hd.after _
  limit hd := hd.limit_after _
  lists hd hsmall hafter hl :=
    ((hd.after _).lists_iff hafter).mpr (hd.elements_after hsmall hafter ((hd.lists_iff hsmall).mp hl))

theorem Reachable.get?_eq (hd : d.Reachable hasher) (hsmall : d.storage.capacity ≤ Table.denseLimit)
    (hl : d.storage.Lists l) (key : K) : d.storage.get? key = .ok ((l.find? (·.1 == key)).map Prod.snd) := by
  obtain ⟨s, hentries, hstep⟩ := hd.entries
  rw [hentries] at hsmall hl ⊢
  have hdense := hstep.shaped.dense_iff.mpr hsmall
  obtain rfl := Except.ok.inj (hl.iter.symm.trans (FixedDict.toList_iter hstep))
  have hsearch := (FixedDict.search_ofEntries hasher s key).trans (hstep.find_of_dense hdense _ _)
  rw [List.find?_eq_bind_findIdx?_getElem?]
  cases hfound : s.slots.elements.findIdx? (·.1 == key) with
  | none =>
    rw [hfound] at hsearch
    exact FixedDict.get?_of_search_none hsearch
  | some b =>
    rw [hfound] at hsearch
    obtain ⟨hb, -⟩ := List.findIdx?_eq_some_iff_getElem.mp hfound
    have hx := (hstep.occupant_of_dense hdense b).trans (List.getElem?_eq_getElem hb)
    rw [Option.bind_some, List.getElem?_eq_getElem hb]
    exact FixedDict.get?_of_search_some hsearch (FixedDict.holds_ofEntries.mpr hx)

theorem Reachable.capacity_after (hd : d.Reachable hasher) (he : e.Reachable hasher')
    (hsmall : d.storage.capacity ≤ Table.denseLimit) (call : EntryCall K V ε R) (htwin : (kind K V ε R).Twin d e) :
    (d.after (.entry call)).storage.capacity = (e.after (.entry call)).storage.capacity := by
  obtain ⟨hlimit, hcapacity, l, hl, hl'⟩ := htwin
  have hlimit : d.limit = e.limit := hlimit
  have hcapacity : d.storage.capacity = e.storage.capacity := hcapacity
  have hget := hd.get?_eq hsmall hl call.key
  have hget' := he.get?_eq (hcapacity ▸ hsmall) hl' call.key
  have hdense : Table.denseLimit < Scale.limit := by decide
  cases d with
  | fixed d =>
    cases e with
    | fixed e => exact (hd.limit_after call).trans (hcapacity.trans (he.limit_after call).symm)
    | growing e => exact absurd hsmall (Nat.not_le.mpr (hdense.trans_eq hlimit.symm))
  | growing g =>
    cases e with
    | fixed e => exact absurd (hcapacity.symm.trans_le hsmall) (Nat.not_le.mpr (hdense.trans_eq hlimit))
    | growing g' =>
      obtain ⟨m, hkept⟩ := hd.keptBy (FixedDict.steady hasher)
      obtain ⟨held, hheld, heffect⟩ := (GrowDict.carryOut_safe ⟨m, hkept⟩ (.entry call)).after.2
      obtain ⟨held', hheld', heffect'⟩ :=
        (GrowDict.carryOut_safe (he.keptBy (FixedDict.steady hasher')) (.entry call)).after.2
      cases hheld.symm.trans hget
      cases hheld'.symm.trans hget'
      exact heffect.capacity_eq heffect' hkept.onSequence (hl.size.trans hl'.size.symm) hcapacity

theorem likeLists : (kind K V ε R).LikeLists fun hasher => Reachable hasher := by
  refine Kind.likeLists arranges (fun hasher d hd hsmall => ?_)
    fun _ _ _ _ call hd he hsmall => hd.capacity_after he hsmall call
  obtain ⟨s, hentries, hstep⟩ := hd.entries
  refine ⟨s.slots.elements, (hd.lists_iff hsmall).mpr ?_⟩
  rw [hentries]
  exact FixedDict.elements_ofEntries hstep

end AnyDict

/-! ### Other ways to insert and to move -/

namespace Growable

variable {C α : Type} [Backing C α]

/-- The storage has the property again after its elements have moved, if it was small and is small. -/
structure KeepsMoving (P : C → Prop) (g : Growable C) : Prop where
  reserve : ∀ n, ((Growable.reserve n).runOn g).2.capacity ≤ Table.denseLimit →
    P ((Growable.reserve n).runOn g).2.storage
  shrinkToFit : P ((Growable.shrinkToFit : Action (Growable C) Unit).runOn g).2.storage

end Growable

variable [BEq K] {hasher : Hasher K}

/-- What cannot be inserted is handed back, which leaves the set as it was. -/
theorem AnySet.after_tryInsert {s : FixedSet K} (hs : AnySet.Reachable hasher (.fixed s)) (key : K) :
    .fixed ((FixedSet.tryInsert key).runOn s).2 = (AnySet.fixed s).after (.insert key) := by
  obtain ⟨held, hguards⟩ := FixedSet.exists_guards hs key
  rw [AnySet.after, FixedSet.carryOut, runOn_map]
  by_cases hlacks : s.Lacks key
  · rw [hguards.tryInsert_lacking hlacks, hguards.insert.eq hlacks]
    rfl
  · rw [hguards.tryInsert hlacks]
    rfl

theorem AnyDict.after_tryInsert {d : FixedDict K V} (hd : AnyDict.Reachable hasher (.fixed d)) (key : K) (value : V) :
    .fixed ((FixedDict.tryInsert key value).runOn d).2 =
      (AnyDict.fixed d).after (.entry (.insert key value : EntryCall K V ε R)) := by
  obtain ⟨held, hguards⟩ := FixedDict.exists_guards hd key
  rw [AnyDict.after, AnyDict.Call.toFixed, FixedDict.carryOut, runOn_map]
  by_cases hlacks : d.Lacks key
  · rw [hguards.tryInsert_lacking hlacks, (hguards.insert value).eq hlacks]
    rfl
  · rw [hguards.tryInsert hlacks]
    rfl

theorem AnySet.Reachable.keepsMoving {g : GrowSet K} {l : List K} (hg : AnySet.Reachable hasher (.growing g))
    (hsmall : g.capacity ≤ Table.denseLimit) (hl : g.storage.Lists l) :
    g.KeepsMoving fun storage => storage.Lists l := by
  have hlisted := (hg.lists_iff hsmall).mp hl
  obtain ⟨m, h⟩ := hg.steady
  have happends := FixedSet.appends hasher
  have hreserve := fun n => hg.callGrowing (.reserve n : GrowSet.Call K Empty)
  have hshrink := hg.callGrowing (.shrinkToFit : GrowSet.Call K Empty)
  refine ⟨fun n hafter => ((hreserve n).lists_iff hafter).mpr ((happends.reserve h hafter).trans hlisted), ?_⟩
  exact (hshrink.lists_iff (h.shrinkToFit_safe.after.2.capacity_le.trans hsmall)).mpr
    ((happends.shrinkToFit h hsmall).trans hlisted)

theorem AnyDict.Reachable.keepsMoving {g : GrowDict K V} {l : List (K × V)}
    (hg : AnyDict.Reachable hasher (.growing g)) (hsmall : g.capacity ≤ Table.denseLimit) (hl : g.storage.Lists l) :
    g.KeepsMoving fun storage => storage.Lists l := by
  have hlisted := (hg.lists_iff hsmall).mp hl
  obtain ⟨m, h⟩ := hg.keptBy (FixedDict.steady hasher)
  have happends := FixedDict.appends (V := V) hasher
  have hreserve := fun n => hg.callGrowing (.reserve n : GrowDict.Call K V Empty Empty)
  have hshrink := hg.callGrowing (.shrinkToFit : GrowDict.Call K V Empty Empty)
  refine ⟨fun n hafter => ((hreserve n).lists_iff hafter).mpr ((happends.reserve h hafter).trans hlisted), ?_⟩
  exact (hshrink.lists_iff (h.shrinkToFit_safe.after.2.capacity_le.trans hsmall)).mpr
    ((happends.shrinkToFit h hsmall).trans hlisted)

/-- A container of either kind, whatever it has been through, behaves as a list does while its capacity is at most
fifteen, whatever its hasher is: its elements are in the first buckets, where insertions append and removals put the
last element in the place of the one removed. A checked insertion is an insertion, and moving keeps the order. -/
theorem small_containers_are_lists :
    ((AnySet.kind K).LikeLists fun hasher => AnySet.Reachable hasher) ∧
    ((AnyDict.kind K V ε R).LikeLists fun hasher => AnyDict.Reachable hasher) ∧
    (∀ (hasher : Hasher K) (s : FixedSet K), AnySet.Reachable hasher (.fixed s) → ∀ key,
      .fixed ((FixedSet.tryInsert key).runOn s).2 = (AnySet.fixed s).after (.insert key)) ∧
    (∀ (hasher : Hasher K) (d : FixedDict K V), AnyDict.Reachable hasher (.fixed d) → ∀ key value,
      .fixed ((FixedDict.tryInsert key value).runOn d).2 =
        (AnyDict.fixed d).after (.entry (.insert key value : EntryCall K V ε R))) ∧
    (∀ (hasher : Hasher K) (g : GrowSet K), AnySet.Reachable hasher (.growing g) → g.capacity ≤ Table.denseLimit →
      ∀ l, g.storage.Lists l → g.KeepsMoving fun storage => storage.Lists l) ∧
    ∀ (hasher : Hasher K) (g : GrowDict K V), AnyDict.Reachable hasher (.growing g) → g.capacity ≤ Table.denseLimit →
      ∀ l, g.storage.Lists l → g.KeepsMoving fun storage => storage.Lists l :=
  ⟨AnySet.likeLists, AnyDict.likeLists, fun _ _ => AnySet.after_tryInsert, fun _ _ => AnyDict.after_tryInsert,
    fun _ _ hg hsmall _ => hg.keepsMoving hsmall, fun _ _ hg hsmall _ => hg.keepsMoving hsmall⟩

/-- Entries come, and all but two go again: by removals, and by an edit that takes the value out and gives up. The
dictionary grows in five steps and shrinks in one, with all keys in one bucket or each in one of its own. A set of two
keeps their order when it makes room for eight more. -/
theorem small_containers_are_lists_regrown :
    ∃ (g g' : GrowDict Nat Nat) (calls : List (EntryCall Nat Nat Empty Empty)) (s : GrowSet Nat),
      AnyDict.Reachable (fun _ _ => 7) (.growing g) ∧ AnyDict.Reachable (fun _ key => key.toUInt64) (.growing g') ∧
      (AnyDict.kind Nat Nat Empty Empty).StaysSmall (.growing g) calls ∧
      (List.range 15).map
        (fun n => ((AnyDict.kind Nat Nat Empty Empty).afterAll (.growing g) (calls.take n)).storage.capacity) =
          [0, 1, 2, 4, 4, 7, 7, 7, 14, 14, 14, 14, 14, 14, 2] ∧
      ((AnyDict.kind Nat Nat Empty Empty).afterAll (.growing g) calls).storage.Lists [(4, 40), (5, 50)] ∧
      (AnyDict.kind Nat Nat Empty Empty).Twin ((AnyDict.kind Nat Nat Empty Empty).afterAll (.growing g) calls)
        ((AnyDict.kind Nat Nat Empty Empty).afterAll (.growing g') calls) ∧
      AnySet.Reachable (fun _ _ => 7) (.growing s) ∧ s.storage.Lists [5, 3] ∧
      ((Growable.reserve 8).runOn s).2.capacity = 14 ∧ ((Growable.reserve 8).runOn s).2.storage.Lists [5, 3] := by
  obtain ⟨g, calls, hg, hsize, hcapacity, hsmall, hcapacities, hlist⟩ :
      ∃ (g : GrowDict Nat Nat) (calls : List (EntryCall Nat Nat Empty Empty)),
        AnyDict.Reachable (fun _ _ => 7) (.growing g) ∧ g.storage.size = 0 ∧ g.storage.capacity = 0 ∧
        (AnyDict.kind Nat Nat Empty Empty).StaysSmall (.growing g) calls ∧
        (List.range 15).map
          (fun n => ((AnyDict.kind Nat Nat Empty Empty).afterAll (.growing g) (calls.take n)).storage.capacity) =
            [0, 1, 2, 4, 4, 7, 7, 7, 14, 14, 14, 14, 14, 14, 2] ∧
        calls.foldl ((AnyDict.kind Nat Nat Empty Empty).arrange ((AnyDict.kind Nat Nat Empty Empty).limit (.growing g)))
          [] = [(4, 40), (5, 50)] :=
    ⟨⟨_, .constant 0, []⟩,
      [.insert 1 10, .insert 2 20, .insert 3 30, .update 4 40, .memoize 5 fun _ => .ok 50, .insert 6 60, .insert 7 70,
        .insert 8 80, .remove 1, .edit 7 fun _ => (none, .error "stop"), .removeEntry 6, .remove 2, .remove 8,
        .remove 3],
      .growing (rfl : GrowDict.vacant 0 _ _ = .ok _), rfl, rfl, by decide +kernel, by decide +kernel, by decide +kernel⟩
  obtain ⟨g', hg', hsize', hcapacity'⟩ : ∃ g : GrowDict Nat Nat,
      AnyDict.Reachable (fun _ key => key.toUInt64) (.growing g) ∧ g.storage.size = 0 ∧ g.storage.capacity = 0 :=
    ⟨⟨_, .constant 0, []⟩, .growing (rfl : GrowDict.vacant 0 _ _ = .ok _), rfl, rfl⟩
  obtain ⟨l, hl, hrun⟩ := (small_containers_are_lists (ε := Empty) (R := Empty)).2.1.run hg (hsmall 0)
  obtain ⟨l', hl', -⟩ :=
    (small_containers_are_lists (ε := Empty) (R := Empty)).2.1.run hg' (hcapacity'.trans_le (Nat.zero_le _))
  obtain rfl := List.length_eq_zero_iff.mp (hl.size.symm.trans hsize)
  obtain rfl := List.length_eq_zero_iff.mp (hl'.size.symm.trans hsize')
  have htwin : (AnyDict.kind Nat Nat Empty Empty).Twin (.growing g) (.growing g') :=
    ⟨rfl, hcapacity.trans hcapacity'.symm, [], hl, hl'⟩
  have hnewSet : AnySet.Reachable (fun _ (_ : Nat) => 7) (.growing ⟨_, .constant 0, []⟩) :=
    .growing (rfl : GrowSet.vacant 0 _ _ = .ok _)
  have htwo := (hnewSet.callGrowing (.member (.insert 5) : GrowSet.Call Nat Empty)).callGrowing
    (.member (.insert 3) : GrowSet.Call Nat Empty)
  obtain ⟨s, hs, hfew, hroomy, hiter⟩ : ∃ s : GrowSet Nat, AnySet.Reachable (fun _ _ => 7) (.growing s) ∧
      s.capacity = 2 ∧ ((Growable.reserve 8).runOn s).2.capacity = 14 ∧ s.storage.iter.toList = .ok [5, 3] :=
    ⟨_, htwo, by decide +kernel, by decide +kernel, by decide +kernel⟩
  have hfew : s.capacity ≤ Table.denseLimit := hfew.trans_le (by decide)
  obtain ⟨members, hmembers, -⟩ := (small_containers_are_lists (V := Nat) (ε := Empty) (R := Empty)).1.run hs hfew
  obtain rfl := Except.ok.inj (hmembers.iter.symm.trans hiter)
  have hmoving := (small_containers_are_lists (V := Nat) (ε := Empty) (R := Empty)).2.2.2.2.1 _ s hs hfew _ hmembers
  exact ⟨g, g', calls, s, hg, hg', hsmall, hcapacities, hlist ▸ hrun calls hsmall,
    (small_containers_are_lists.2.1.twins hg hg' htwin calls hsmall).2, hs, hmembers, hroomy,
    hmoving.reserve 8 (hroomy.trans_le (by decide))⟩

end RobinHood
