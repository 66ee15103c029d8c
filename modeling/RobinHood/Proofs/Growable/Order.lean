import RobinHood.Proofs.Growable.Upkeep

/-!
# Moving keeps the order

Small storage puts a new element behind the others. As the elements that move to new storage are taken out in order,
and put in one after the other, they stay in order as long as the storage is small.
-/

namespace RobinHood

open RobinHood.Action RobinHood.Ledger

/-- The list with an element behind the others, if there are less of them than the limit. -/
def appendWithin {α : Type} (limit : Nat) (l : List α) (x : α) : List α :=
  if l.length < limit then l ++ [x] else l

variable {C α β : Type} [Backing C α] {U : Upkeep C α} {c n : Nat} {g t : Growable C} {m listed : List α} {x : α}

/-- Small storage puts a new element behind the others, whatever hash it is given. No elements exclude each other. -/
structure Upkeep.Appends (U : Upkeep C α) : Prop where
  apart : ∀ x y, U.Apart x y
  insertNew : ∀ {c s m listed x hash b t}, U.Keeps c s m → c ≤ Table.denseLimit → Backing.elements s = .ok listed →
    (Backing.insertNew x hash).runOn s = (.ok b, t) → Backing.elements t = .ok (listed ++ [x])

theorem Upkeep.length_elements {s : C} (h : U.Stores c s m) (hlisted : Backing.elements s = .ok listed) :
    listed.length = m.length := by
  obtain ⟨listed', hlisted', hperm⟩ := U.elements h
  obtain rfl := Except.ok.inj (hlisted.symm.trans hlisted')
  exact hperm.length_eq

namespace Upkeep.Appends

open Growable

theorem onStorage (hU : U.Appends) (h : U.Keeps c g.storage m) (hsmall : c ≤ Table.denseLimit)
    (hlisted : Backing.elements g.storage = .ok listed) {hash : UInt64} {b : Nat}
    (hrun : (onStorage (Backing.insertNew x hash)).runOn g = (.ok b, t)) :
    Backing.elements t.storage = .ok (listed ++ [x]) := by
  obtain ⟨storage, hplaced, rfl⟩ := exists_of_onStorage hrun
  exact hU.insertNew h hsmall hlisted hplaced

theorem reinsert (hU : U.Appends) (h : U.Keeps c g.storage m) (hsmall : c ≤ Table.denseLimit)
    (hlisted : Backing.elements g.storage = .ok listed) (hrun : (reinsert x).runOn g = (.ok ⟨⟩, t)) :
    Backing.elements t.storage = .ok (listed ++ [x]) := by
  rw [Growable.reinsert, runOn_get_bind] at hrun
  obtain ⟨b, u, hplaced, hdone⟩ := exists_of_bind hrun
  cases hdone
  exact hU.onStorage h hsmall hlisted hplaced

theorem forM_reinsert (hU : U.Appends) (hsmall : c ≤ Table.denseLimit) (entries : List α) :
    ∀ {g t : Growable C} {m listed : List α}, U.Keeps c g.storage m → entries.length + m.length ≤ c →
      Backing.elements g.storage = .ok listed → ActionT.runOn (entries.forM Growable.reinsert) g = (.ok ⟨⟩, t) →
      Backing.elements t.storage = .ok (listed ++ entries) := by
  -- The elements that have moved already are in front of those that are still to move.
  induction entries with
  | nil =>
    intro g t m listed _ _ hlisted hrun
    cases hrun
    rw [List.append_nil, hlisted]
  | cons x entries ih =>
    intro g t m listed h hroom hlisted hrun
    rw [List.length_cons] at hroom
    obtain ⟨u, hfirst, -, hkeeps⟩ := runOn_reinsert h (by omega) fun y _ => hU.apart x y
    have hnext := hU.reinsert h hsmall hlisted hfirst
    rw [List.forM, runOn_bind_ok hfirst] at hrun
    rw [← List.singleton_append, ← List.append_assoc]
    exact ih hkeeps (by rw [List.length_cons]; omega) hnext hrun

/-- Elements that move to small storage stay in order. -/
theorem resize (hU : U.Appends) (h : U.Stores c g.storage m) {required : Nat} (hlength : m.length ≤ required)
    (hrun : (resize required).runOn g = (.ok ⟨⟩, t)) (hsmall : t.capacity ≤ Table.denseLimit) :
    Backing.elements t.storage = Backing.elements g.storage := by
  have hlimit : required ≤ Scale.limit := by
    by_contra hover
    cases (runOn_resize_overflow (Nat.not_le.mp hover)).symm.trans hrun
  obtain ⟨v, hsame, -, hmoves⟩ := runOn_resize h hlength hlimit
  cases hrun.symm.trans hsame
  obtain ⟨c', hfitting, hfits⟩ := Scale.exists_fitting hlimit
  obtain ⟨u, hrenew, -, hnil⟩ := runOn_renewStorage h hfits.onSequence.le_limit
  obtain ⟨listed, hlisted, hperm⟩ := U.elements h
  obtain ⟨none, hnone, hempty⟩ := U.elements (U.stores hnil)
  rw [List.perm_nil.mp hempty] at hnone
  rw [Growable.resize, hfitting, runOn_ok_bind, runOn_get_bind, runOn_bind_ok hrenew, record,
    runOn_bind_ok (runOn_modify _ u), hlisted, runOn_ok_bind] at hrun
  have hroom := hfits.le
  rw [hlisted]
  refine hU.forM_reinsert (hmoves.fits.eq_of_fits hfits ▸ hsmall) listed
    (g := { u with journal := u.journal ++ [.resized g.capacity c' g.size] }) hnil ?_ hnone hrun
  rw [List.length_nil, hperm.length_eq]
  omega

theorem ensureFree (hU : U.Appends) (h : U.Held g m) {replaced : Bool}
    (hrun : (ensureFree n).runOn g = (.ok replaced, t)) (hsmall : t.capacity ≤ Table.denseLimit) :
    Backing.elements t.storage = Backing.elements g.storage := by
  by_cases hroom : n ≤ g.freeCapacity
  · cases (runOn_ensureFree_of_room hroom).symm.trans hrun
    rfl
  · rw [Growable.ensureFree, runOn_get_bind, if_neg hroom] at hrun
    obtain ⟨required, g', hfirst, hrest⟩ := exists_of_bind hrun
    obtain ⟨htotal, rfl⟩ := eq_ok_of_liftM hfirst
    obtain ⟨⟨⟩, u, hresize, hdone⟩ := exists_of_bind hrest
    cases hdone
    have hlength := h.size
    have hsum := Scale.eq_of_total htotal
    exact hU.resize (U.stores h.keeps) (by omega) hresize hsmall

theorem insertAbsent (hU : U.Appends) (h : U.Held g m) {b : Nat}
    (hrun : (insertAbsent x (g.placementHash x)).runOn g = (.ok b, t)) (hsmall : t.capacity ≤ Table.denseLimit)
    (hlisted : Backing.elements g.storage = .ok listed) : Backing.elements t.storage = .ok (listed ++ [x]) := by
  obtain ⟨-, u, replaced, hensure, -, hheld, hroom⟩ | ⟨-, hensure⟩ := h.ensureFree 1
  · obtain ⟨-, t', b', hrun', -, -, hroom'⟩ | ⟨-, hrun'⟩ := h.insertAbsent fun y _ => hU.apart x y
    · cases hrun.symm.trans hrun'
      rw [← hroom.capacity_eq hroom' rfl] at hsmall
      rw [← hU.ensureFree h hensure hsmall] at hlisted
      rw [Growable.insertAbsent, runOn_bind_ok hensure, runOn_get_bind] at hrun
      exact hU.onStorage hheld.keeps hsmall hlisted hrun
    · cases hrun.symm.trans hrun'
  · rw [Growable.insertAbsent, runOn_bind_error hensure] at hrun
    cases hrun

theorem place (hU : U.Appends) {s : C} {hash : UInt64} (h : U.Keeps c s m) (hsmall : c ≤ Table.denseLimit)
    (henters : Enters (U.Keeps c) U.Holds ⟨c, U.refusal⟩ (Backing.insertNew x hash) s m x)
    (hlisted : Backing.elements s = .ok listed) :
    Backing.elements ((Backing.insertNew x hash).runOn s).2 = .ok (appendWithin c listed x) := by
  rw [appendWithin, length_elements (U.stores h) hlisted]
  rw [Enters] at henters
  split at henters
  · next hroom =>
    obtain ⟨t, b, hrun, -⟩ := henters
    rw [if_pos hroom, hrun]
    exact hU.insertNew h hsmall hlisted hrun
  · next hfull => rw [if_neg hfull, henters, hlisted]

/-- A new element comes behind the others, if room can be made for it. -/
theorem enter (hU : U.Appends) (h : U.Held g m)
    (hsmall : ((Growable.insertAbsent x (g.placementHash x)).runOn g).2.capacity ≤ Table.denseLimit)
    (hlisted : Backing.elements g.storage = .ok listed) :
    Backing.elements ((Growable.insertAbsent x (g.placementHash x)).runOn g).2.storage =
      .ok (appendWithin Scale.limit listed x) := by
  rw [appendWithin, length_elements (U.stores h.keeps) hlisted]
  obtain ⟨hroom, t, b, hrun, -⟩ | ⟨hfull, hrun⟩ := h.insertAbsent fun y _ => hU.apart x y
  · rw [if_pos hroom, hrun]
    rw [hrun] at hsmall
    exact hU.insertAbsent h hrun hsmall hlisted
  · rw [if_neg (Nat.not_lt.mpr hfull), hrun, hlisted]

/-- What is left when an element was taken out, in the one way or the other, stays in order. -/
theorem takeOut (hU : U.Appends) (h : U.Held g m) {remove abandon : Action C β} {removed : β} {left : List α}
    (htaken : ∃ t m', remove.runOn g.storage = (.ok removed, t) ∧ U.Keeps g.capacity t m' ∧ m'.length + 1 = m.length)
    (hleft : ∃ t m', abandon.runOn g.storage = (.ok removed, t) ∧ U.Stores g.capacity t m' ∧
      m'.length + 1 = m.length)
    (hremove : ∃ t, remove.runOn g.storage = (.ok removed, t) ∧ Backing.elements t = .ok left)
    (habandon : ∃ t, abandon.runOn g.storage = (.ok removed, t) ∧ Backing.elements t = .ok left)
    (hsmall : ((Growable.takeOut remove abandon).runOn g).2.capacity ≤ Table.denseLimit) :
    Backing.elements ((Growable.takeOut remove abandon).runOn g).2.storage = .ok left := by
  obtain ⟨scale, hscale, -⟩ := h.scale
  have htable : Backing.table g.storage = Backing.table g.storage := rfl
  obtain ⟨t, -, hrun, -⟩ := h.takeOut hscale htable htaken hleft
  have hrun : (Growable.takeOut remove abandon).runOn g = (.ok removed, t) := hrun
  rw [hrun] at hsmall ⊢
  rw [Growable.takeOut, runOn_get_bind, hscale, runOn_ok_bind] at hrun
  split at hrun
  · obtain ⟨storage, hremoved, rfl⟩ := exists_of_onStorage hrun
    obtain ⟨storage', hremoved', hlisted⟩ := hremove
    cases hremoved.symm.trans hremoved'
    exact hlisted
  · obtain ⟨removed, u, habandoned, hrest⟩ := exists_of_bind hrun
    obtain ⟨storage, hremoved, rfl⟩ := exists_of_onStorage habandoned
    rw [runOn_get_bind] at hrest
    obtain ⟨⟨⟩, v, hresize, hdone⟩ := exists_of_bind hrest
    cases hdone
    obtain ⟨storage', hremoved', hlisted⟩ := habandon
    cases hremoved.symm.trans hremoved'
    obtain ⟨storage'', m', hremoved'', hstores, -⟩ := hleft
    cases hremoved.symm.trans hremoved''
    rw [← hlisted]
    exact hU.resize hstores (U.count hstores).ge hresize hsmall

/-- Where room is asked for, the elements stay in order, also if it is refused. -/
theorem reserve (hU : U.Appends) (h : U.Held g m)
    (hsmall : ((Growable.reserve n).runOn g).2.capacity ≤ Table.denseLimit) :
    Backing.elements ((Growable.reserve n).runOn g).2.storage = Backing.elements g.storage := by
  obtain ⟨-, t, hrun, -⟩ | ⟨-, hrun⟩ := h.reserve n
  · rw [hrun] at hsmall ⊢
    obtain ⟨replaced, u, hensure, hdone⟩ := exists_of_bind hrun
    cases hdone
    exact hU.ensureFree h hensure hsmall
  · rw [hrun]

theorem shrinkToFit (hU : U.Appends) (h : U.Held g m) (hsmall : g.capacity ≤ Table.denseLimit) :
    Backing.elements ((Growable.shrinkToFit : Action (Growable C) Unit).runOn g).2.storage =
      Backing.elements g.storage := by
  obtain ⟨t, hrun, -, ⟨-, rfl⟩ | ⟨hless, -⟩⟩ := h.shrinkToFit
  · rw [hrun]
  · rw [hrun]
    rw [Growable.shrinkToFit, runOn_get_bind] at hrun
    obtain ⟨fit, g', hfit, hrest⟩ := exists_of_bind hrun
    obtain ⟨-, rfl⟩ := eq_ok_of_liftM hfit
    obtain ⟨scale, u, hscale, hshrunk⟩ := exists_of_bind hrest
    obtain ⟨-, rfl⟩ := eq_ok_of_liftM hscale
    split at hshrunk
    · exact hU.resize (U.stores h.keeps) h.size.ge hshrunk (hless.le.trans hsmall)
    · cases hshrunk
      rfl

end Upkeep.Appends

end RobinHood
