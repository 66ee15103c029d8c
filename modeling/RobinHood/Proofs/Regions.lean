import Mathlib.Data.List.Sort
import RobinHood.Proofs.Traversal

/-!
# Regions are the maximal runs of occupied buckets

A region ends where the next bucket is free, and the next region is searched from there. So the cursor never cuts a
run in two, and never passes over an occupied bucket. Nothing is asked of the table: the bitmap may have any size, and
any of its bits may be set, the spare ones as well.
-/

namespace RobinHood

variable {σ α : Type} {p : Nat → Bool} {start n i : Nat} {region other : Region} {runs : List Region}

/-! ### Maximal runs -/

namespace Region

/-- The positions of the region satisfy `p`, and it cannot be made longer at either end. -/
structure Maximal (p : Nat → Bool) (region : Region) : Prop where
  nonempty : region.start < region.stop
  inside : ∀ i, region.start ≤ i → i < region.stop → p i = true
  before : ∀ i, i + 1 = region.start → p i = false
  behind : p region.stop = false

def buckets (region : Region) : List Nat :=
  List.range' region.start (region.stop - region.start)

theorem mem_buckets : i ∈ region.buckets ↔ region.start ≤ i ∧ i < region.stop := by
  rw [buckets, List.mem_range'_1]
  omega

theorem buckets_cons (hlt : region.start < region.stop) :
    region.buckets = region.start :: buckets ⟨region.start + 1, region.stop⟩ := by
  rw [buckets, buckets, ← List.range'_succ]
  congr 1
  change region.stop - region.start = region.stop - (region.start + 1) + 1
  omega

/-- A run that reaches into a maximal one does not begin before it. -/
theorem Maximal.start_le (h : region.Maximal p) (hother : other.Maximal p) (hi : i ∈ region.buckets)
    (hiother : i ∈ other.buckets) : region.start ≤ other.start := by
  rw [mem_buckets] at hi hiother
  by_contra hlt
  have hbefore := h.before (region.start - 1) (by omega)
  rw [hother.inside (region.start - 1) (by omega) (by omega)] at hbefore
  cases hbefore

theorem Maximal.stop_le (h : region.Maximal p) (hother : other.Maximal p) (hi : i ∈ region.buckets)
    (hiother : i ∈ other.buckets) : other.stop ≤ region.stop := by
  rw [mem_buckets] at hi hiother
  by_contra hlt
  have hbehind := h.behind
  rw [hother.inside region.stop (by omega) (by omega)] at hbehind
  cases hbehind

theorem Maximal.eq_of_mem (h : region.Maximal p) (hother : other.Maximal p) (hi : i ∈ region.buckets)
    (hiother : i ∈ other.buckets) : region = other := by
  have hstart := Nat.le_antisymm (h.start_le hother hi hiother) (hother.start_le h hiother hi)
  have hstop := Nat.le_antisymm (hother.stop_le h hiother hi) (h.stop_le hother hi hiother)
  cases region
  cases other
  cases hstart
  cases hstop
  rfl

end Region

/-- Maximal runs from `start` on, in increasing order and with a gap behind each, that leave no position out. -/
structure RunsFrom (p : Nat → Bool) (start : Nat) (runs : List Region) : Prop where
  maximal : ∀ region ∈ runs, region.Maximal p
  le : ∀ region ∈ runs, start ≤ region.start
  apart : runs.Pairwise fun region later => region.stop < later.start
  covers : ∀ i, start ≤ i → p i = true → ∃ region ∈ runs, i ∈ region.buckets

namespace RunsFrom

theorem nil (hnone : ∀ i, start ≤ i → p i = false) : RunsFrom p start [] where
  maximal _ hmem := nomatch hmem
  le _ hmem := nomatch hmem
  apart := .nil
  covers i hi hp := by
    rw [hnone i hi] at hp
    cases hp

theorem cons (hmaximal : region.Maximal p) (hle : start ≤ region.start)
    (hskipped : ∀ i, start ≤ i → i < region.start → p i = false) (hrest : RunsFrom p region.stop runs) :
    RunsFrom p start (region :: runs) where
  maximal := List.forall_mem_cons.mpr ⟨hmaximal, hrest.maximal⟩
  le := by
    refine List.forall_mem_cons.mpr ⟨hle, fun later hlater => ?_⟩
    have hnonempty := hmaximal.nonempty
    have hstop := hrest.le later hlater
    omega
  apart := by
    refine List.pairwise_cons.mpr ⟨fun later hlater => ?_, hrest.apart⟩
    apply Nat.lt_of_le_of_ne (hrest.le later hlater)
    intro hmeet
    have hlaterMaximal := hrest.maximal later hlater
    have hbehind := hmaximal.behind
    rw [hmeet, hlaterMaximal.inside _ (le_refl _) hlaterMaximal.nonempty] at hbehind
    cases hbehind
  covers i hi hp := by
    by_cases hbefore : i < region.start
    · rw [hskipped i hi hbefore] at hp
      cases hp
    by_cases hin : i < region.stop
    · exact ⟨region, List.mem_cons_self, Region.mem_buckets.mpr ⟨Nat.not_lt.mp hbefore, hin⟩⟩
    · obtain ⟨later, hlater, hmem⟩ := hrest.covers i (Nat.not_lt.mp hin) hp
      exact ⟨later, List.mem_cons_of_mem _ hlater, hmem⟩

theorem mem_iff (h : RunsFrom p 0 runs) : region ∈ runs ↔ region.Maximal p := by
  refine ⟨h.maximal region, fun hmaximal => ?_⟩
  -- Some run of the list has the first position of the region, and is the region then.
  have hp := hmaximal.inside _ (le_refl _) hmaximal.nonempty
  obtain ⟨found, hfound, hmem⟩ := h.covers region.start (Nat.zero_le _) hp
  have hself : region.start ∈ region.buckets := Region.mem_buckets.mpr ⟨le_refl _, hmaximal.nonempty⟩
  rwa [hmaximal.eq_of_mem (h.maximal found hfound) hself hmem]

theorem holds_iff (h : RunsFrom p 0 runs) : p i = true ↔ ∃ region ∈ runs, i ∈ region.buckets := by
  refine ⟨h.covers i (Nat.zero_le i), ?_⟩
  rintro ⟨region, hregion, hmem⟩
  obtain ⟨hlo, hhi⟩ := Region.mem_buckets.mp hmem
  exact (h.maximal region hregion).inside i hlo hhi

theorem pairwise_flatMap (h : RunsFrom p start runs) : (runs.flatMap Region.buckets).Pairwise (· < ·) := by
  refine List.pairwise_flatMap.mpr ⟨fun _ _ => List.pairwise_lt_range', h.apart.imp fun hgap i hi j hj => ?_⟩
  have hstop := (Region.mem_buckets.mp hi).2
  have hstart := (Region.mem_buckets.mp hj).1
  omega

theorem flatMap_eq (h : RunsFrom p 0 runs) (hbound : ∀ i, p i = true → i < n) :
    runs.flatMap Region.buckets = (List.range n).filter p := by
  apply h.pairwise_flatMap.eq_of_mem_iff (List.pairwise_lt_range.filter p)
  intro i
  rw [List.mem_flatMap, List.mem_filter, List.mem_range, ← h.holds_iff]
  exact ⟨fun hp => ⟨hbound i hp, hp⟩, And.right⟩

end RunsFrom

/-! ### What the cursors yield -/

/-- Steps give the elements one after the other, and no more however often they are asked. -/
def Drains (next? : σ → Except Fault (Option (α × σ))) (s : σ) (xs : List α) : Prop :=
  ∀ n, ∃ behind, takeUpTo next? n s = .ok (xs.take n, behind) ∧
    (xs.length ≤ n → ∀ k, takeUpTo next? k behind = .ok ([], behind))

theorem Yields.drains {next? : σ → Except Fault (Option (α × σ))} {s : σ} {xs : List α} (h : Yields next? s xs) :
    Drains next? s xs := by
  intro n
  obtain ⟨behind, htaken, hrest⟩ := h.takeUpTo n
  refine ⟨behind, htaken, fun hall => ?_⟩
  rw [List.drop_of_length_le hall] at hrest
  cases hrest with
  | nil hnext => exact takeUpTo_of_none hnext

namespace Table

variable {table : Table} {regions : Regions}

theorem regionFrom_stop (hregion : table.regionFrom start = some region) : table.isOccupied region.stop = false := by
  cases hlayout : table.layout with
  | dense =>
    simp only [regionFrom, hlayout] at hregion
    by_cases hstart : start < table.count
    · rw [if_pos hstart] at hregion
      cases hregion
      simp only [isOccupied, hlayout, lt_irrefl, decide_false]
    · rw [if_neg hstart] at hregion
      cases hregion
  | probed occupancy =>
    simp only [regionFrom, hlayout, Option.map_eq_some_iff] at hregion
    obtain ⟨first, -, rfl⟩ := hregion
    have hleast := occupancy.firstClearFrom_least first
    simp only [isOccupied, hlayout]
    cases hfound : occupancy.firstClearFrom first with
    | none => simp only [Option.getD_none, lt_irrefl, decide_false, Bool.false_and]
    | some stop =>
      rw [hfound] at hleast
      obtain ⟨-, -, hclear, -⟩ := hleast
      rw [Bool.not_eq_true'] at hclear
      rw [Option.getD_some, hclear, Bool.and_false]

/-- From a position that is not within a run, the next region is the next maximal run. -/
theorem regionFrom_maximal (hedge : ∀ i, i + 1 = start → table.isOccupied i = true → table.isOccupied start = false)
    (hregion : table.regionFrom start = some region) :
    start ≤ region.start ∧ region.Maximal table.isOccupied ∧
      ∀ i, start ≤ i → i < region.start → table.isOccupied i = false := by
  obtain ⟨hfirst, hrun⟩ := table.regionFrom_first start
  rw [hregion] at hfirst
  obtain ⟨hle, hoccupied, hskipped⟩ := hfirst
  obtain ⟨hlt, hinside⟩ := hrun region hregion
  refine ⟨hle, ⟨hlt, hinside, fun i hi => ?_, regionFrom_stop hregion⟩, hskipped⟩
  -- The bucket before the region was searched, unless the search began with the region.
  by_cases hstart : start ≤ i
  · exact hskipped i hstart (by omega)
  · obtain rfl : start = region.start := by omega
    rw [← Bool.not_eq_true]
    intro hp
    rw [hedge i hi hp] at hoccupied
    cases hoccupied

theorem exists_runsFrom (table : Table) (start : Nat)
    (hedge : ∀ i, i + 1 = start → table.isOccupied i = true → table.isOccupied start = false) :
    ∃ runs, RunsFrom table.isOccupied start runs ∧
      Yields (fun cursor => .ok (Regions.next? cursor)) ⟨table, start⟩ runs := by
  induction hlen : table.endBucket - start using Nat.strongRecOn generalizing start with
  | ind len ih =>
    cases hfound : table.regionFrom start with
    | none =>
      have hfirst := (table.regionFrom_first start).1
      rw [hfound] at hfirst
      exact ⟨[], .nil hfirst, .nil (by rw [Regions.next?, hfound]; rfl)⟩
    | some region =>
      obtain ⟨hle, hmaximal, hskipped⟩ := regionFrom_maximal hedge hfound
      -- The bucket behind a region is free, so the search may go on from there.
      have hlt := hmaximal.nonempty
      have hend := lt_endBucket_of_isOccupied (hmaximal.inside _ (le_refl _) hlt)
      obtain ⟨runs, hruns, hyields⟩ := ih _ (by omega) region.stop (fun _ _ _ => hmaximal.behind) rfl
      exact ⟨region :: runs, .cons hmaximal hle hskipped hruns, .cons (by rw [Regions.next?, hfound]; rfl) hyields⟩

/-- The buckets of the region at hand come first, whatever comes then. -/
theorem yields_current {xs : List Nat} (hbehind : ∀ current : Region, current.stop ≤ current.start →
      Yields (fun cursor => .ok (Buckets.next? cursor)) ⟨regions, current⟩ xs) (current : Region) :
    Yields (fun cursor => .ok (Buckets.next? cursor)) ⟨regions, current⟩ (current.buckets ++ xs) := by
  induction hlen : current.stop - current.start generalizing current with
  | zero =>
    rw [Region.buckets, hlen]
    exact hbehind current (Nat.sub_eq_zero_iff_le.mp hlen)
  | succ len ih =>
    have hlt : current.start < current.stop := by omega
    rw [Region.buckets_cons hlt]
    refine .cons (t := ⟨regions, ⟨current.start + 1, current.stop⟩⟩) ?_ (ih _ ?_)
    · rw [Buckets.next?, if_pos hlt]
    · change current.stop - (current.start + 1) = len
      omega

/-- The cursor over buckets flattens what the cursor over regions yields. -/
theorem yields_flatMap (h : Yields (fun cursor => .ok (Regions.next? cursor)) regions runs)
    (hnonempty : ∀ region ∈ runs, region.start < region.stop) (current : Region) :
    Yields (fun cursor => .ok (Buckets.next? cursor)) ⟨regions, current⟩
      (current.buckets ++ runs.flatMap Region.buckets) := by
  induction h generalizing current with
  | nil hnext =>
    apply yields_current
    intro current hout
    refine .nil ?_
    rw [Buckets.next?, if_neg (Nat.not_lt.mpr hout), Except.ok.inj hnext]
    rfl
  | cons hnext _ ih =>
    obtain ⟨hlt, hrest⟩ := List.forall_mem_cons.mp hnonempty
    apply yields_current
    intro current hout
    rw [List.flatMap_cons, Region.buckets_cons hlt]
    refine .cons ?_ (ih hrest _)
    rw [Buckets.next?, if_neg (Nat.not_lt.mpr hout), Except.ok.inj hnext]
    rfl

end Table

/-- Whatever is occupied in a table, its regions are exactly the maximal runs of occupied buckets, in increasing order
and with a free bucket between any two, and the cursors go through them and through their buckets to the end. -/
theorem regions_are_maximal_runs (table : Table) : ∃ runs : List Region,
    (∀ region, region ∈ runs ↔ region.Maximal table.isOccupied) ∧
    runs.Pairwise (fun region later => region.stop < later.start) ∧
    (∀ b, table.isOccupied b = true ↔ ∃ region ∈ runs, b ∈ region.buckets) ∧
    Drains (fun cursor => .ok (Table.Regions.next? cursor)) table.regions runs ∧
    runs.flatMap Region.buckets = (List.range table.endBucket).filter table.isOccupied ∧
    Drains (fun cursor => .ok (Table.Buckets.next? cursor)) table.buckets
      ((List.range table.endBucket).filter table.isOccupied) := by
  obtain ⟨runs, hruns, hyields⟩ := table.exists_runsFrom 0 nofun
  have hflat := hruns.flatMap_eq fun _ => Table.lt_endBucket_of_isOccupied
  have hbuckets := Table.yields_flatMap hyields (fun region hregion => (hruns.maximal region hregion).nonempty) ⟨0, 0⟩
  refine ⟨runs, fun _ => hruns.mem_iff, hruns.apart, fun _ => hruns.holds_iff, hyields.drains, hflat, ?_⟩
  rw [← hflat]
  exact hbuckets.drains

/-- A region of the first bucket only, one across two words, and one up to the last bucket. -/
example : Prod.fst <$> takeUpTo (fun cursor => .ok (Table.Regions.next? cursor)) 5
    (Table.regions ⟨.probed ⟨#[0xC000000000000001, 0xC000000000000003], 128, rfl⟩, 112, 7, 0⟩) =
      .ok [⟨0, 1⟩, ⟨62, 66⟩, ⟨126, 128⟩] := by
  decide +kernel

end RobinHood
