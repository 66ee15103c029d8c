import RobinHood.Bitmap
import Mathlib.Tactic.ByContra

/-!
# Bits and searches

Reading, setting and clearing bits, and the two searches, as facts about single bits. A search answers
the least position with the wanted bit, although it looks at whole words and the last word may have
spare bits.
-/

namespace RobinHood.Bitmap

variable {map : Bitmap} {i j : Nat}

/-- No spare bit is set. -/
def Tidy (map : Bitmap) : Prop :=
  ∀ i, map.size ≤ i → map.bit i = false

theorem word_lt (hi : i < map.size) : i / 64 < map.words.size := by
  rw [map.words_size]
  omega

/-! ### Single bits -/

theorem bit_eq_of_lt {w : Nat} (hw : w < map.words.size) (hj : j < 64) :
    map.bit (w * 64 + j) = map.words[w].getLsbD j := by
  rw [bit, show (w * 64 + j) / 64 = w by omega, show (w * 64 + j) % 64 = j by omega,
    Array.getD_eq_getD_getElem?, Array.getElem?_eq_getElem hw, Option.getD_some]

theorem size_zeros (size : Nat) : (zeros size).size = size := rfl

theorem bit_zeros (size i : Nat) : (zeros size).bit i = false := by
  rw [bit, zeros, Array.getD_eq_getD_getElem?, Array.getElem?_replicate]
  split <;> exact BitVec.getLsbD_zero

theorem bit_clearAll (map : Bitmap) (i : Nat) : map.clearAll.bit i = false := by
  rw [bit, clearAll, Array.getD_eq_getD_getElem?, Array.getElem?_map]
  cases map.words[i / 64]? <;> exact BitVec.getLsbD_zero

theorem eq_zeros (h : ∀ i, map.bit i = false) : map = zeros map.size := by
  have hword : ∀ w (hw : w < map.words.size), map.words[w] = 0 := by
    intro w hw
    apply BitVec.eq_of_getLsbD_eq
    intro j hj
    rw [← bit_eq_of_lt hw hj, h]
    exact BitVec.getLsbD_zero.symm
  obtain ⟨words, size, hsize⟩ := map
  have hwords : words = Array.replicate ((size + 63) / 64) 0 := by
    apply Array.ext
    · rw [hsize, Array.size_replicate]
    · intro w hw _
      rw [Array.getElem_replicate]
      exact hword w hw
  subst hwords
  rfl

theorem bit_modify (f : Word → Word) (hi : i < map.size) (j : Nat) :
    (map.modify i f).bit j =
      if j / 64 = i / 64 then (f (map.words.getD (i / 64) 0)).getLsbD (j % 64) else map.bit j := by
  have hword := word_lt hi
  rw [bit, bit, modify, Array.getD_eq_getD_getElem?, Array.getElem?_modify]
  by_cases hsame : i / 64 = j / 64
  · rw [if_pos hsame, if_pos hsame.symm, ← hsame, Array.getD_eq_getD_getElem?,
      Array.getElem?_eq_getElem hword]
    rfl
  · rw [if_neg hsame, if_neg (Ne.symm hsame), Array.getD_eq_getD_getElem?]

private theorem same_bit : (j / 64 = i / 64 ∧ j % 64 = i % 64) ↔ j = i := by
  omega

theorem isSet_of_lt (hi : i < map.size) : map.isSet i = .ok (map.bit i) := by
  rw [isSet, if_pos (word_lt hi)]

theorem set_of_lt (hi : i < map.size) :
    ∃ raised, map.set i = .ok raised ∧ raised.size = map.size ∧
      ∀ j, raised.bit j = if j = i then true else map.bit j := by
  refine ⟨map.modify i (· ||| mask i), by rw [set, if_pos (word_lt hi)], rfl, fun j => ?_⟩
  rw [bit_modify _ hi]
  by_cases hword : j / 64 = i / 64
  · rw [if_pos hword, BitVec.getLsbD_or, mask, BitVec.getLsbD_twoPow, bit, hword]
    by_cases hbit : i % 64 = j % 64
    · simp [same_bit.mp ⟨hword, hbit.symm⟩, Nat.mod_lt]
    · have : j ≠ i := fun h => hbit (by rw [h])
      simp [hbit, this]
  · have : j ≠ i := fun h => hword (by rw [h])
    rw [if_neg hword, if_neg this]

theorem clear_of_lt (hi : i < map.size) :
    ∃ lowered, map.clear i = .ok lowered ∧ lowered.size = map.size ∧
      ∀ j, lowered.bit j = if j = i then false else map.bit j := by
  refine ⟨map.modify i (· &&& ~~~ mask i), by rw [clear, if_pos (word_lt hi)], rfl, fun j => ?_⟩
  rw [bit_modify _ hi]
  by_cases hword : j / 64 = i / 64
  · rw [if_pos hword, BitVec.getLsbD_and, BitVec.getLsbD_not, mask, BitVec.getLsbD_twoPow, bit, hword]
    by_cases hbit : i % 64 = j % 64
    · simp [same_bit.mp ⟨hword, hbit.symm⟩, Nat.mod_lt]
    · have : j ≠ i := fun h => hbit (by rw [h])
      simp [hbit, this, Nat.mod_lt]
  · have : j ≠ i := fun h => hword (by rw [h])
    rw [if_neg hword, if_neg this]

theorem tidy_zeros (size : Nat) : (zeros size).Tidy := fun i _ => bit_zeros size i

theorem tidy_clearAll (map : Bitmap) : map.clearAll.Tidy := fun i _ => bit_clearAll map i

/-! ### Searches -/

/-- The answer of a search: the least position from `start` on and below `size` where `p` holds. -/
def Least (p : Nat → Bool) (start size : Nat) : Option Nat → Prop
  | some i => start ≤ i ∧ i < size ∧ p i = true ∧ ∀ j, start ≤ j → j < i → p j = false
  | none => ∀ j, start ≤ j → j < size → p j = false

theorem Least.of_le {p : Nat → Bool} {start later size : Nat} {found : Option Nat}
    (h : Least p later size found) (hle : start ≤ later) (hnone : ∀ j, start ≤ j → j < later → p j = false) :
    Least p start size found := by
  cases found with
  | none =>
    intro j hstart hsize
    by_cases hlater : j < later
    · exact hnone j hstart hlater
    · exact h j (by omega) hsize
  | some i =>
    obtain ⟨hlo, hhi, hp, hmin⟩ := h
    refine ⟨by omega, hhi, hp, fun j hstart hji => ?_⟩
    by_cases hlater : j < later
    · exact hnone j hstart hlater
    · exact hmin j (by omega) hji

/-- The lowest bit of a word that has one is the least match in it, unless it is a spare bit; there
is none then, as it would have to come earlier. -/
theorem lowestHit_least {p : Nat → Bool} {w : Nat} {hits : Word} (hne : hits ≠ 0) (map : Bitmap)
    (hp : ∀ j < 64, hits.getLsbD j = p (w * 64 + j)) :
    Least p (w * 64) map.size (map.lowestHit w hits) := by
  have hlt : hits.ctz.toNat < 64 := by
    simpa [BitVec.lt_def] using BitVec.ctz_lt_iff_ne_zero.mpr hne
  have hmin : ∀ j, w * 64 ≤ j → j < w * 64 + hits.ctz.toNat → p j = false := by
    intro j hlo hhi
    obtain ⟨r, rfl⟩ := Nat.exists_eq_add_of_le hlo
    rw [← hp r (by omega)]
    exact BitVec.getLsbD_false_of_lt_ctz (by omega)
  rw [lowestHit]
  by_cases hsize : w * 64 + hits.ctz.toNat < map.size
  · rw [if_pos hsize]
    exact ⟨by omega, hsize, by rw [← hp _ hlt]; exact BitVec.getLsbD_true_ctz_of_ne_zero hne, hmin⟩
  · rw [if_neg hsize]
    exact fun j hlo hhi => hmin j hlo (by omega)

variable {view : Word → Word} {p : Nat → Bool}

/-- The words from `w` on are searched for the bits that `view` sets. -/
theorem firstMatchFromWord_least (map : Bitmap) (w : Nat)
    (hview : ∀ w (hw : w < map.words.size), ∀ j < 64, (view map.words[w]).getLsbD j = p (w * 64 + j)) :
    Least p (w * 64) map.size (map.firstMatchFromWord view w) := by
  fun_induction firstMatchFromWord map view w with
  | case1 w hw hits hzero ih =>
    apply ih.of_le (by omega)
    intro j hlo hhi
    obtain ⟨r, rfl⟩ := Nat.exists_eq_add_of_le hlo
    rw [← hview w hw r (by omega)]
    change hits.getLsbD r = false
    rw [hzero]
    exact BitVec.getLsbD_zero
  | case2 w hw hits hne => exact lowestHit_least hne map (hview w hw)
  | case3 w hw =>
    intro j hlo hhi
    have := word_lt hhi
    omega

theorem firstMatchFrom_least (map : Bitmap) (start : Nat)
    (hview : ∀ w (hw : w < map.words.size), ∀ j < 64, (view map.words[w]).getLsbD j = p (w * 64 + j)) :
    Least p start map.size (map.firstMatchFrom view start) := by
  by_cases hstart : start < map.size
  · simp only [firstMatchFrom, if_pos hstart]
    have hword := word_lt hstart
    -- The first word is searched with the bits before `start` masked out.
    have hhits : ∀ j < 64, (view (map.words.getD (start / 64) 0) &&&
        (BitVec.allOnes 64 <<< (start % 64))).getLsbD j =
          (decide (start ≤ start / 64 * 64 + j) && p (start / 64 * 64 + j)) := by
      intro j hj
      have hfrom : (start ≤ start / 64 * 64 + j) ↔ ¬ j < start % 64 := by omega
      rw [Array.getD_eq_getD_getElem?, Array.getElem?_eq_getElem hword, Option.getD_some,
        BitVec.getLsbD_and, hview _ hword j hj, BitVec.getLsbD_shiftLeft, BitVec.getLsbD_allOnes,
        decide_eq_decide.mpr hfrom, decide_not]
      by_cases hlow : j < start % 64
      · simp [hlow]
      · simp [hlow, hj, (by omega : j - start % 64 < 64)]
    generalize view (map.words.getD (start / 64) 0) &&& (BitVec.allOnes 64 <<< (start % 64)) = hits at hhits
    by_cases hzero : hits = 0
    · have hrest := firstMatchFromWord_least (p := p) map (start / 64 + 1) hview
      rw [if_pos hzero]
      apply hrest.of_le (by omega)
      intro j hlo hhi
      have hj := hhits (j - start / 64 * 64) (by omega)
      rw [hzero, show start / 64 * 64 + (j - start / 64 * 64) = j by omega, decide_eq_true hlo,
        Bool.true_and] at hj
      exact hj.symm.trans BitVec.getLsbD_zero
    · have hleast := lowestHit_least (p := fun i => decide (start ≤ i) && p i) hzero map hhits
      rw [if_neg hzero]
      cases hfound : map.lowestHit (start / 64) hits with
      | none =>
        rw [hfound] at hleast
        intro j hlo hhi
        simpa [hlo] using hleast j (by omega) hhi
      | some i =>
        rw [hfound] at hleast
        obtain ⟨_, hhi, hp, hmin⟩ := hleast
        simp only [Bool.and_eq_true, decide_eq_true_eq] at hp
        refine ⟨hp.1, hhi, hp.2, fun j hlo hji => ?_⟩
        simpa [hlo] using hmin j (by omega) hji
  · rw [firstMatchFrom, if_neg hstart]
    intro j hlo hhi
    omega

theorem firstSetFrom_least (map : Bitmap) (start : Nat) :
    Least map.bit start map.size (map.firstSetFrom start) :=
  firstMatchFrom_least map start fun _ hw _ hj => (bit_eq_of_lt hw hj).symm

theorem firstClearFrom_least (map : Bitmap) (start : Nat) :
    Least (fun i => !map.bit i) start map.size (map.firstClearFrom start) :=
  firstMatchFrom_least map start fun w hw j hj => by
    rw [bit_eq_of_lt hw hj, BitVec.getLsbD_not, decide_eq_true hj, Bool.true_and]

end RobinHood.Bitmap
