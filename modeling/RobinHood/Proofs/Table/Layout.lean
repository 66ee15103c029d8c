import Mathlib.Data.Finset.Card
import Mathlib.Data.Nat.Find
import Mathlib.Order.Interval.Finset.Nat
import RobinHood.Proofs.Table.Order

/-!
# The layout that Robin Hood order leaves

Which buckets are occupied, and the home of whoever sits there, depends only on how many elements have
which home. Seen from a free bucket, an element never sits beyond another free bucket, and homes never
decrease along the circle; so the elements at home in a window can be counted by the buckets of the
window. Two arrangements that disagree about a bucket would count differently.
-/

namespace RobinHood.Cyclic

abbrev Homes := Nat → Option Nat

namespace Homes

variable {n : Nat} {h h' : Homes} {b c i j k u v : Nat} {p : Nat → Bool}

def profile (n : Nat) (h : Homes) : Profile :=
  fun b => (h b).map fun u => distance n u b

/-- Buckets and homes lie on the circle, and the occupants are in Robin Hood order. -/
structure Sound (n : Nat) (h : Homes) : Prop where
  lt : ∀ b u, h b = some u → b < n ∧ u < n
  inOrder : (h.profile n).InOrder n

/-- Buckets and homes lie on the circle, and the buckets from the home of an occupant to its own are occupied. -/
structure Linear (n : Nat) (h : Homes) : Prop where
  lt : ∀ b u, h b = some u → b < n ∧ u < n
  path : ∀ c u, h c = some u → ∀ i ≤ distance n u c, h (ahead n u i) ≠ none

/-! ### Counting by buckets -/

/-- How many occupants have a home that satisfies `p`. -/
def tally (n : Nat) (h : Homes) (p : Nat → Bool) : Nat :=
  ((Finset.range n).filter fun b => (h b).any p = true).card

theorem tally_le {steps : Finset Nat}
    (hsteps : ∀ c u, h c = some u → p u = true → ∃ j ∈ steps, ahead n b j = c) :
    h.tally n p ≤ steps.card := by
  have hsub : ((Finset.range n).filter fun c => (h c).any p = true) ⊆ steps.image (ahead n b) := by
    intro c hc
    obtain ⟨u, hu, hp⟩ := (Option.any_eq_true _ _).mp (Finset.mem_filter.mp hc).2
    exact Finset.mem_image.mpr (hsteps c u hu hp)
  exact (Finset.card_le_card hsub).trans Finset.card_image_le

theorem le_tally {steps : Finset Nat} (hlt : ∀ j ∈ steps, j < n)
    (hsteps : ∀ j ∈ steps, ∃ u, h (ahead n b j) = some u ∧ p u = true) :
    steps.card ≤ h.tally n p := by
  apply Finset.card_le_card_of_injOn (ahead n b)
  · intro j hj
    have hn : 0 < n := Nat.zero_lt_of_lt (hlt j hj)
    exact Finset.mem_filter.mpr ⟨Finset.mem_range.mpr (ahead_lt hn b j),
      (Option.any_eq_true _ _).mpr (hsteps j hj)⟩
  · intro i hi j hj heq
    exact ahead_inj (hlt i hi) (hlt j hj) heq

theorem le_tally_of_run (hk : k < n) (hrun : ∀ j, 0 < j → j ≤ k → ∃ u, h (ahead n b j) = some u ∧ p u = true) :
    k ≤ h.tally n p := by
  have hle : (Finset.Ioc 0 k).card ≤ h.tally n p := by
    apply le_tally (b := b)
    · intro j hj
      have hjk := (Finset.mem_Ioc.mp hj).2
      omega
    · intro j hj
      obtain ⟨hpos, hjk⟩ := Finset.mem_Ioc.mp hj
      exact hrun j hpos hjk
  rwa [Nat.card_Ioc, Nat.sub_zero] at hle

theorem tally_lt_of_window (hpos : 0 < k)
    (hwindow : ∀ c u, h c = some u → p u = true → ∃ j, 0 < j ∧ j < k ∧ ahead n b j = c) : h.tally n p < k := by
  have hle : h.tally n p ≤ (Finset.Ioo 0 k).card := by
    apply tally_le (b := b)
    intro c u hu hp
    obtain ⟨j, hj, hjk, hc⟩ := hwindow c u hu hp
    exact ⟨j, Finset.mem_Ioo.mpr ⟨hj, hjk⟩, hc⟩
  rw [Nat.card_Ioo] at hle
  omega

/-! ### Seen from a free bucket -/

/-- The buckets from the home of an occupant to its own are occupied. -/
theorem Sound.path (hs : h.Sound n) (hu : h c = some u) (hi : i ≤ distance n u c) :
    ∃ v, h (ahead n u i) = some v ∧ i ≤ distance n v (ahead n u i) := by
  obtain ⟨hc, hun⟩ := hs.lt c u hu
  have hd : h.profile n (ahead n u (distance n u c)) = some (distance n u c) := by
    rw [ahead_distance hun hc, profile, hu]
    rfl
  obtain ⟨g, hg, hle⟩ := hs.inOrder.reach (Nat.zero_lt_of_lt hc) hd (le_refl _) hi
  obtain ⟨v, hv, rfl⟩ := Option.map_eq_some_iff.mp hg
  exact ⟨v, hv, hle⟩

theorem Sound.linear (hs : h.Sound n) : h.Linear n where
  lt := hs.lt
  path c u hu i hi := by
    obtain ⟨v, hv, -⟩ := hs.path hu hi
    rw [hv]
    exact Option.some_ne_none v

/-- The way from a free bucket to an occupant leads past its home, which is farther on. -/
theorem Linear.distance_add (hs : h.Linear n) (hb : b < n) (hfree : h b = none) (hi : i < n)
    (hu : h (ahead n b i) = some u) :
    0 < distance n b u ∧ distance n b u + distance n u (ahead n b i) = i := by
  have hn : 0 < n := Nat.zero_lt_of_lt hb
  have hun := (hs.lt _ _ hu).2
  have hmlt := distance_lt hn b u
  have hsteps : ∀ j, ahead n u j = ahead n b (distance n b u + j) := by
    intro j
    rw [← ahead_ahead, ahead_distance hb hun]
  have hplace : ahead n b (distance n b u + distance n u (ahead n b i)) = ahead n b i := by
    rw [← hsteps, ahead_distance hun (ahead_lt hn b i)]
  constructor
  · apply Nat.pos_of_ne_zero
    intro hzero
    apply hs.path _ _ hu 0 (Nat.zero_le _)
    rw [hsteps, hzero, ahead_zero hb, hfree]
  · by_cases hwrap : distance n b u + distance n u (ahead n b i) < n
    · exact ahead_inj hwrap hi hplace
    · -- Otherwise the way from the home to the occupant leads past the free bucket.
      exfalso
      apply hs.path _ _ hu (n - distance n b u) (by omega)
      rw [hsteps, show distance n b u + (n - distance n b u) = 0 + n by omega, ahead_add_self, ahead_zero hb, hfree]

/-- Seen from a free bucket, homes do not decrease. -/
theorem Sound.mono (hs : h.Sound n) (hb : b < n) (hfree : h b = none) (hi : i < n) (hji : j ≤ i)
    (hv : h (ahead n b j) = some v) (hu : h (ahead n b i) = some u) :
    distance n b v ≤ distance n b u := by
  have hun := (hs.lt _ _ hu).2
  have hadd := (hs.linear.distance_add hb hfree hi hu).2
  have hadd' := (hs.linear.distance_add hb hfree (by omega) hv).2
  by_cases hfrom : distance n b u ≤ j
  · obtain ⟨v', hv', hle⟩ := hs.path hu (by omega : j - distance n b u ≤ distance n u (ahead n b i))
    have hplace : ahead n u (j - distance n b u) = ahead n b j := by
      rw [← Nat.add_sub_cancel' hfrom, ← ahead_ahead, ahead_distance hb hun, Nat.add_sub_cancel_left]
    rw [hplace] at hv' hle
    cases hv.symm.trans hv'
    omega
  · omega

/-- Going back from an occupied bucket, one meets a free one, and only occupied ones before. -/
theorem exists_free_behind (hc : c < n) (hfree : h c = none) (hb : b < n) (hocc : h b ≠ none) :
    ∃ g k, g < n ∧ h g = none ∧ 0 < k ∧ k < n ∧ ahead n g k = b ∧
      ∀ j, 0 < j → j ≤ k → h (ahead n g j) ≠ none := by
  obtain ⟨m, hm, rfl⟩ := exists_ahead hc hb
  let j := Nat.findGreatest (fun j => h (ahead n c j) = none) m
  have hjm : j ≤ m := Nat.findGreatest_le m
  have hj : h (ahead n c j) = none :=
    Nat.findGreatest_spec (P := fun j => h (ahead n c j) = none) (Nat.zero_le m) (by rwa [ahead_zero hc])
  have hne : j ≠ m := fun heq => hocc (heq ▸ hj)
  refine ⟨ahead n c j, m - j, ahead_lt (Nat.zero_lt_of_lt hc) c j, hj, by omega, by omega, ?_, ?_⟩
  · rw [ahead_ahead, Nat.add_sub_cancel' hjm]
  · intro i hpos hi
    rw [ahead_ahead]
    exact Nat.findGreatest_is_greatest (P := fun j => h (ahead n c j) = none)
      (show j < j + i by omega) (by omega)

/-! ### Two arrangements of the same homes -/

/-- A bucket that is free in one arrangement is free in another with the same homes. Otherwise, from
the nearest free bucket of the second on, there is an occupant for each bucket of the window up to here,
while the first has one bucket less for them. -/
theorem Linear.free_of_tally (hs : h.Linear n) (hs' : h'.Linear n)
    (hsame : ∀ p, h.tally n p = h'.tally n p) (hc : c < n) (hfree : h' c = none) (hb : b < n)
    (hnone : h b = none) : h' b = none := by
  by_contra hocc
  obtain ⟨g, k, hg, hgap, hpos, hk, rfl, hrun⟩ := exists_free_behind hc hfree hb hocc
  let p : Nat → Bool := fun u => decide (0 < distance n g u ∧ distance n g u ≤ k)
  have hmany : k ≤ h'.tally n p := by
    apply le_tally_of_run (b := g) hk
    intro j hj0 hjk
    obtain ⟨u, hu⟩ := Option.ne_none_iff_exists'.mp (hrun j hj0 hjk)
    have hadd := hs'.distance_add hg hgap (by omega) hu
    exact ⟨u, hu, decide_eq_true ⟨hadd.1, by omega⟩⟩
  have hfew : h.tally n p < k := by
    apply tally_lt_of_window (b := g) hpos
    intro c u hu hp
    obtain ⟨hfrom, hle⟩ := of_decide_eq_true hp
    obtain ⟨hcn, hun⟩ := hs.lt c u hu
    have hsteps : ∀ i, ahead n u i = ahead n g (distance n g u + i) := by
      intro i
      rw [← ahead_ahead, ahead_distance hg hun]
    have hshort : distance n g u + distance n u c < k := by
      by_contra hlong
      apply hs.path c u hu (k - distance n g u) (by omega)
      rw [hsteps, Nat.add_sub_cancel' hle, hnone]
    refine ⟨distance n g u + distance n u c, by omega, hshort, ?_⟩
    rw [← hsteps, ahead_distance hun hcn]
  exact absurd (hsame p) (hfew.trans_le hmany).ne

/-- Of two arrangements with the same homes and the same free buckets, neither has a home at a bucket
that is closer to the free bucket than the home there in the other: up to that home there are as many
occupants as buckets up to here in the first, and fewer in the second. -/
theorem Sound.home_le_of_tally (hs : h.Sound n) (hs' : h'.Sound n)
    (hsame : ∀ p, h.tally n p = h'.tally n p) (hfree : ∀ b < n, h b = none → h' b = none)
    (hb : b < n) (hnone : h b = none) (hi : i < n) (hu : h (ahead n b i) = some u)
    (hv : h' (ahead n b i) = some v) : distance n b v ≤ distance n b u := by
  by_contra hlt
  let p : Nat → Bool := fun w => decide (distance n b w ≤ distance n b u)
  let steps := (Finset.range i).filter fun j => h (ahead n b j) ≠ none
  have hmany : (insert i steps).card ≤ h.tally n p := by
    apply le_tally (b := b)
    · intro j hj
      obtain rfl | hj := Finset.mem_insert.mp hj
      · exact hi
      · have hji := Finset.mem_range.mp (Finset.mem_filter.mp hj).1
        omega
    · intro j hj
      obtain rfl | hj := Finset.mem_insert.mp hj
      · exact ⟨u, hu, decide_eq_true (le_refl _)⟩
      · obtain ⟨hji, hocc⟩ := Finset.mem_filter.mp hj
        obtain ⟨w, hw⟩ := Option.ne_none_iff_exists'.mp hocc
        exact ⟨w, hw, decide_eq_true (hs.mono hb hnone hi (Nat.le_of_lt (Finset.mem_range.mp hji)) hw hu)⟩
  have hfew : h'.tally n p ≤ steps.card := by
    apply tally_le (b := b)
    intro c w hw hp
    have hcn := (hs'.lt c w hw).1
    obtain ⟨j, hj, rfl⟩ := exists_ahead hb hcn
    have hji : j < i := by
      by_contra hij
      have hle := hs'.mono hb (hfree b hb hnone) hj (Nat.le_of_not_lt hij) hv hw
      have := of_decide_eq_true hp
      omega
    refine ⟨j, Finset.mem_filter.mpr ⟨Finset.mem_range.mpr hji, fun hno => ?_⟩, rfl⟩
    rw [hfree _ hcn hno] at hw
    cases hw
  have hnew : i ∉ steps := fun hmem => Nat.lt_irrefl i (Finset.mem_range.mp (Finset.mem_filter.mp hmem).1)
  rw [Finset.card_insert_of_notMem hnew, hsame p] at hmany
  omega

/-- Robin Hood order determines the arrangement: with the same homes, the same buckets are occupied, and
the home of the occupant of each bucket is the same. -/
theorem Sound.eq_of_tally (hs : h.Sound n) (hs' : h'.Sound n) (hsame : ∀ p, h.tally n p = h'.tally n p)
    (hroom : ∃ c < n, h c = none) (hroom' : ∃ c < n, h' c = none) : h = h' := by
  obtain ⟨g, hg, hgap⟩ := hroom
  obtain ⟨c, hc, hgap'⟩ := hroom'
  have hfree : ∀ b < n, h b = none → h' b = none := fun b hb hnone =>
    hs.linear.free_of_tally hs'.linear hsame hc hgap' hb hnone
  have hfree' : ∀ b < n, h' b = none → h b = none := fun b hb hnone =>
    hs'.linear.free_of_tally hs.linear (fun p => (hsame p).symm) hg hgap hb hnone
  funext b
  cases hu : h b with
  | none =>
    cases hv : h' b with
    | none => rfl
    | some v => cases hv.symm.trans (hfree b (hs'.lt b v hv).1 hu)
  | some u =>
    obtain ⟨hb, hun⟩ := hs.lt b u hu
    cases hv : h' b with
    | none => cases hu.symm.trans (hfree' b hb hv)
    | some v =>
      have hvn := (hs'.lt b v hv).2
      obtain ⟨i, hi, rfl⟩ := exists_ahead hg hb
      have hle := hs.home_le_of_tally hs' hsame hfree hg hgap hi hu hv
      have hge := hs'.home_le_of_tally hs (fun p => (hsame p).symm) hfree' hg (hfree g hg hgap) hi hv hu
      rw [← ahead_distance hg hun, ← ahead_distance hg hvn, Nat.le_antisymm hle hge]

/-! ### Distances from home -/

theorem exists_free_of_tally (hsame : ∀ p, h.tally n p = h'.tally n p) (hb : b < n) (hfree : h b = none) :
    ∃ c < n, h' c = none := by
  by_contra hfull
  have hall : h'.tally n (fun _ => true) = n := by
    rw [tally, Finset.filter_true_of_mem, Finset.card_range]
    intro c hc
    obtain ⟨v, hv⟩ := Option.ne_none_iff_exists'.mp fun hnone => hfull ⟨c, Finset.mem_range.mp hc, hnone⟩
    rw [hv]
    rfl
  have hless : h.tally n (fun _ => true) < (Finset.range n).card := by
    apply Finset.card_lt_card
    apply Finset.filter_ssubset.mpr
    exact ⟨b, Finset.mem_range.mpr hb, by rw [hfree]; exact Bool.false_ne_true⟩
  rw [Finset.card_range, hsame, hall] at hless
  exact Nat.lt_irrefl n hless

/-- No arrangement of the same homes has all its occupants closer to home than some occupant in Robin Hood order
is. From the nearest free bucket up to that occupant, all homes lie at most as far on as its own, and closer to
their homes so many occupants do not find room. -/
theorem Sound.exists_farther (hs : h.Sound n) (hs' : h'.Linear n) (hsame : ∀ p, h.tally n p = h'.tally n p)
    (hb : b < n) (hfree : h b = none) (hu : h c = some u) :
    ∃ c' v, h' c' = some v ∧ distance n u c ≤ distance n v c' := by
  by_contra hclose
  obtain ⟨b', hb', hfree'⟩ := exists_free_of_tally hsame hb hfree
  obtain ⟨g, k, hg, hgap, hpos, hk, rfl, hrun⟩ :=
    exists_free_behind hb hfree (hs.lt c u hu).1 (by rw [hu]; exact Option.some_ne_none u)
  have hgap' := hs.linear.free_of_tally hs' hsame hb' hfree' hg hgap
  have hadd := (hs.linear.distance_add hg hgap hk hu).2
  let p : Nat → Bool := fun v => decide (distance n g v ≤ distance n g u)
  have hmany : k ≤ h.tally n p := by
    apply le_tally_of_run (b := g) hk
    intro j hj0 hjk
    obtain ⟨v, hv⟩ := Option.ne_none_iff_exists'.mp (hrun j hj0 hjk)
    exact ⟨v, hv, decide_eq_true (hs.mono hg hgap hk hjk hv hu)⟩
  have hfew : h'.tally n p < k := by
    apply tally_lt_of_window (b := g) hpos
    intro c' v hv hp
    have hle := of_decide_eq_true hp
    obtain ⟨j, hj, rfl⟩ := exists_ahead hg (hs'.lt c' v hv).1
    obtain ⟨hfrom, hfar⟩ := hs'.distance_add hg hgap' hj hv
    have hcloser : distance n v (ahead n g j) < distance n u (ahead n g k) := by
      by_contra hfarther
      exact hclose ⟨_, v, hv, Nat.le_of_not_lt hfarther⟩
    exact ⟨j, by omega, by omega, rfl⟩
  exact absurd (hsame p).symm (hfew.trans_le hmany).ne

end Homes

end RobinHood.Cyclic
