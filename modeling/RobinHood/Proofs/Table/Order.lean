import Mathlib.Logic.Function.Basic
import RobinHood.Proofs.Cyclic

/-!
# Robin Hood order

A profile tells of each bucket how far its occupant sits past its home, if there is one. It is in order
when whoever is away from home has, in the bucket before, an occupant that is at most one step closer
to its own home. So whoever is `e` steps away from home has occupied buckets all the way back: no
search meets a gap too early.

Insertion carries an element that its place would support from bucket to bucket; removal leaves a hole
that some displacement would fill. Each step of either is one lemma here, about profiles alone.
-/

namespace RobinHood.Cyclic

/-- How far past its home the occupant of each bucket sits. -/
abbrev Profile := Nat → Option Nat

namespace Profile

variable {n : Nat} {d : Profile} {b e f r : Nat}

/-- An element `e` steps past its home may sit at `bucket`: it is at home, or the occupant of the bucket
before is at most one step closer to its own. -/
def Supports (n : Nat) (d : Profile) (bucket e : Nat) : Prop :=
  e = 0 ∨ ∃ f, d (previous n bucket) = some f ∧ e ≤ f + 1

/-- Every occupant may sit where it does. -/
def InOrder (n : Nat) (d : Profile) : Prop :=
  ∀ b < n, ∀ e, d b = some e → Supports n d b e

/-- From an occupant that sits at least `e` steps past its home, the `e` buckets before it are occupied,
and whoever sits there is no closer to home than by the steps between. -/
theorem InOrder.reach {base : Nat} (h : InOrder n d) (hn : 0 < n) (hd : d (ahead n base e) = some f)
    (hle : e ≤ f) {i : Nat} (hi : i ≤ e) : ∃ g, d (ahead n base i) = some g ∧ i ≤ g := by
  induction e generalizing f with
  | zero =>
    obtain rfl : i = 0 := by omega
    exact ⟨f, hd, hle⟩
  | succ e ih =>
    by_cases hlast : i = e + 1
    · subst hlast
      exact ⟨f, hd, hle⟩
    · obtain hzero | ⟨g, hg, hfg⟩ := h _ (ahead_lt hn _ _) f hd
      · omega
      · rw [previous_ahead_succ hn] at hg
        exact ih hg (by omega) (by omega)

/-! ### Insertion -/

theorem InOrder.settle (h : InOrder n d) (hfree : d b = none) (hs : Supports n d b e) :
    InOrder n (Function.update d b (some e)) := by
  have hkeep : ∀ {c e'}, Supports n d c e' → Supports n (Function.update d b (some e)) c e' := by
    rintro c e' (rfl | ⟨f, hf, hle⟩)
    · exact .inl rfl
    · have hne : previous n c ≠ b := by
        rintro rfl
        rw [hfree] at hf
        cases hf
      exact .inr ⟨f, by rwa [Function.update_of_ne hne], hle⟩
  intro c hc e' he'
  by_cases hcb : c = b
  · subst hcb
    rw [Function.update_self] at he'
    cases he'
    exact hkeep hs
  · rw [Function.update_of_ne hcb] at he'
    exact hkeep (h c hc e' he')

theorem InOrder.swap (h : InOrder n d) (hres : d b = some r) (hlt : r < e) (hs : Supports n d b e) :
    InOrder n (Function.update d b (some e)) := by
  have hkeep : ∀ {c e'}, Supports n d c e' → Supports n (Function.update d b (some e)) c e' := by
    rintro c e' (rfl | ⟨f, hf, hle⟩)
    · exact .inl rfl
    · by_cases hprev : previous n c = b
      · subst hprev
        obtain rfl : r = f := by rw [hres] at hf; exact Option.some.inj hf
        exact .inr ⟨e, Function.update_self .., by omega⟩
      · exact .inr ⟨f, by rwa [Function.update_of_ne hprev], hle⟩
  intro c hc e' he'
  by_cases hcb : c = b
  · subst hcb
    rw [Function.update_self] at he'
    cases he'
    exact hkeep hs
  · rw [Function.update_of_ne hcb] at he'
    exact hkeep (h c hc e' he')

theorem supports_next (hb : b < n) (hd : d b = some f) (hle : e ≤ f + 1) : Supports n d (next n b) e :=
  .inr ⟨f, by rw [previous_next hb, hd], hle⟩

/-! ### Removal -/

/-- A hole needs no filling when whoever sits behind it is at home or absent. -/
theorem InOrder.dig (h : InOrder n (Function.update d b (some e))) (hhole : d b = none)
    (hnext : ∀ f, d (next n b) = some f → f = 0) : InOrder n d := by
  intro c hc e' he'
  have hcb : c ≠ b := by
    rintro rfl
    rw [hhole] at he'
    cases he'
  obtain rfl | ⟨f, hf, hle⟩ := h c hc e' (by rwa [Function.update_of_ne hcb])
  · exact .inl rfl
  · by_cases hprev : previous n c = b
    · have : next n b = c := by rw [← hprev, next_previous hc]
      exact .inl (hnext e' (by rwa [this]))
    · rw [Function.update_of_ne hprev] at hf
      exact .inr ⟨f, hf, hle⟩

/-- The occupant behind a hole moves into it, and leaves a hole that it would have filled. -/
theorem InOrder.shift (h : InOrder n (Function.update d b (some e))) (hb : b < n) (hhole : d b = none)
    (hnext : d (next n b) = some (f + 1)) :
    InOrder n (Function.update (Function.update (Function.update d b (some f)) (next n b) none)
      (next n b) (some (f + 1))) := by
  have hn : 0 < n := by omega
  have hne : next n b ≠ b := by
    intro heq
    rw [heq, hhole] at hnext
    cases hnext
  have hfe : f ≤ e := by
    obtain hzero | ⟨g, hg, hle⟩ := h (next n b) (next_lt hn b) (f + 1)
        (by rw [Function.update_of_ne hne, hnext])
    · omega
    · rw [previous_next hb, Function.update_self] at hg
      cases hg
      omega
  rw [Function.update_idem]
  have hback : Function.update (Function.update d b (some f)) (next n b) (some (f + 1)) =
      Function.update d b (some f) := by
    rw [Function.update_eq_self_iff, Function.update_of_ne hne, hnext]
  rw [hback]
  intro c hc e' he'
  by_cases hcb : c = b
  · subst hcb
    rw [Function.update_self] at he'
    cases he'
    obtain hzero | ⟨g, hg, hle⟩ := h c hc e (Function.update_self ..)
    · exact .inl (by omega)
    · have hprev : previous n c ≠ c := by
        intro heq
        exact hne (by conv_lhs => rw [← heq, next_previous hc])
      rw [Function.update_of_ne hprev] at hg
      exact .inr ⟨g, by rwa [Function.update_of_ne hprev], by omega⟩
  · rw [Function.update_of_ne hcb] at he'
    obtain rfl | ⟨g, hg, hle⟩ := h c hc e' (by rwa [Function.update_of_ne hcb])
    · exact .inl rfl
    · by_cases hprev : previous n c = b
      · have hcn : next n b = c := by rw [← hprev, next_previous hc]
        obtain rfl : f + 1 = e' := by
          rw [hcn, he'] at hnext
          exact (Option.some.inj hnext).symm
        exact .inr ⟨f, by rw [hprev, Function.update_self], le_refl _⟩
      · rw [Function.update_of_ne hprev] at hg
        exact .inr ⟨g, by rwa [Function.update_of_ne hprev], hle⟩

theorem InOrder.lt_of_hole (h : InOrder n d) (hb : b < n) (hhole : d b = none) {i : Nat}
    (hd : d (ahead n b i) = some e) : e < i := by
  by_contra hge
  obtain ⟨g, hg, _⟩ := h.reach (by omega) hd (by omega) (Nat.zero_le i)
  rw [ahead_zero hb, hhole] at hg
  cases hg

/-- Behind an occupant at home, nobody sits farther past his home than that occupant is away. -/
theorem InOrder.le_of_home (h : InOrder n d) (hb : b < n) (hhome : d b = some 0) {i : Nat}
    (hd : d (ahead n b i) = some e) : e ≤ i := by
  induction i generalizing e with
  | zero =>
    rw [ahead_zero hb, hhome] at hd
    cases hd
    exact le_refl 0
  | succ i ih =>
    obtain hzero | ⟨f, hf, hle⟩ := h _ (ahead_lt (by omega) b (i + 1)) e hd
    · omega
    · rw [previous_ahead_succ (by omega)] at hf
      have hfi := ih hf
      omega

end Profile

end RobinHood.Cyclic
