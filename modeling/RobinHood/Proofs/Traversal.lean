import Mathlib.Data.List.Basic
import RobinHood.Proofs.Seating.Basic
import RobinHood.Traversal

/-!
# What traversals yield

Both cursors jump from one occupied bucket to the next, the plain one by way of regions. What either
yields is the list of what a function has at the occupied buckets, in increasing order.
-/

namespace RobinHood

variable {σ α : Type}

/-! ### The next occupied bucket -/

/-- The answer of a search without an end: the least position from `start` on where `p` holds. -/
def FirstFrom (p : Nat → Bool) (start : Nat) : Option Nat → Prop
  | some b => start ≤ b ∧ p b = true ∧ ∀ i, start ≤ i → i < b → p i = false
  | none => ∀ i, start ≤ i → p i = false

namespace Table

variable {table : Table} {start : Nat}

private theorem firstFrom_probed {occupancy : Bitmap} {found : Option Nat}
    (hprobed : table.layout = .probed occupancy) (h : Bitmap.Least occupancy.bit start occupancy.size found) :
    FirstFrom table.isOccupied start found := by
  have hbit : ∀ i, table.isOccupied i = (decide (i < occupancy.size) && occupancy.bit i) := by
    intro i
    simp only [isOccupied, hprobed]
  cases found with
  | none =>
    intro i hi
    rw [hbit]
    by_cases hlt : i < occupancy.size
    · rw [h i hi hlt, Bool.and_false]
    · rw [decide_eq_false hlt, Bool.false_and]
  | some b =>
    obtain ⟨hlo, hhi, hset, hmin⟩ := h
    refine ⟨hlo, by rw [hbit, hset, decide_eq_true hhi]; rfl, fun i hi hib => ?_⟩
    rw [hbit, hmin i hi hib, Bool.and_false]

private theorem firstFrom_dense (hdense : table.layout = .dense) (start : Nat) :
    FirstFrom table.isOccupied start (if start < table.count then some start else none) := by
  have hocc : ∀ i, table.isOccupied i = decide (i < table.count) := by
    intro i
    simp only [isOccupied, hdense]
  by_cases hstart : start < table.count
  · rw [if_pos hstart]
    exact ⟨le_refl _, by rw [hocc, decide_eq_true hstart], fun i hi hlt => by omega⟩
  · rw [if_neg hstart]
    intro i hi
    rw [hocc]
    exact decide_eq_false (by omega)

theorem firstOccupiedFrom_first (table : Table) (start : Nat) :
    FirstFrom table.isOccupied start (table.firstOccupiedFrom start) := by
  cases hlayout : table.layout with
  | dense =>
    simp only [firstOccupiedFrom, hlayout]
    exact firstFrom_dense hlayout start
  | probed occupancy =>
    simp only [firstOccupiedFrom, hlayout]
    exact firstFrom_probed hlayout (occupancy.firstSetFrom_least start)

theorem lt_endBucket_of_isOccupied {bucket : Nat} (h : table.isOccupied bucket = true) : bucket < table.endBucket := by
  cases hlayout : table.layout with
  | dense => simpa only [isOccupied, endBucket, hlayout, decide_eq_true_eq] using h
  | probed occupancy =>
    simp only [isOccupied, hlayout, Bool.and_eq_true, decide_eq_true_eq] at h
    simpa only [endBucket, hlayout] using h.1

private theorem run_of_least {occupancy : Bitmap} {first : Nat} {found : Option Nat}
    (h : Bitmap.Least (fun i => !occupancy.bit i) first occupancy.size found)
    (hfirst : first < occupancy.size) (hset : occupancy.bit first = true) :
    first < found.getD occupancy.size ∧
      ∀ i, first ≤ i → i < found.getD occupancy.size → i < occupancy.size ∧ occupancy.bit i = true := by
  cases found with
  | none => exact ⟨hfirst, fun i hlo hhi => ⟨hhi, by simpa using h i hlo hhi⟩⟩
  | some stop =>
    obtain ⟨hle, hlt, hclear, hmin⟩ := h
    have hne : first ≠ stop := by
      rintro rfl
      simp [hset] at hclear
    refine ⟨Nat.lt_of_le_of_ne hle hne, fun i hlo hhi => ⟨Nat.lt_trans hhi hlt, ?_⟩⟩
    simpa using hmin i hlo hhi

theorem regionFrom_first (table : Table) (start : Nat) :
    FirstFrom table.isOccupied start ((table.regionFrom start).map Region.start) ∧
      ∀ region, table.regionFrom start = some region →
        region.start < region.stop ∧ ∀ i, region.start ≤ i → i < region.stop → table.isOccupied i = true := by
  cases hlayout : table.layout with
  | dense =>
    have hfirst := firstFrom_dense hlayout start
    simp only [regionFrom, hlayout]
    by_cases hstart : start < table.count
    · rw [if_pos hstart] at hfirst ⊢
      refine ⟨hfirst, ?_⟩
      rintro _ ⟨⟩
      refine ⟨hstart, fun i _ hi => ?_⟩
      simp only [isOccupied, hlayout]
      exact decide_eq_true hi
    · rw [if_neg hstart] at hfirst ⊢
      refine ⟨hfirst, fun region hregion => ?_⟩
      cases hregion
  | probed occupancy =>
    have hleast := occupancy.firstSetFrom_least start
    simp only [regionFrom, hlayout]
    cases hfound : occupancy.firstSetFrom start with
    | none =>
      rw [hfound] at hleast
      refine ⟨firstFrom_probed hlayout hleast, fun region hregion => ?_⟩
      cases hregion
    | some first =>
      rw [hfound] at hleast
      refine ⟨firstFrom_probed hlayout hleast, ?_⟩
      rintro _ ⟨⟩
      obtain ⟨-, hsize, hset, -⟩ := hleast
      obtain ⟨hlt, hrun⟩ := run_of_least (occupancy.firstClearFrom_least first) hsize hset
      refine ⟨hlt, fun i hlo hhi => ?_⟩
      obtain ⟨hi, hbit⟩ := hrun i hlo hhi
      simp only [isOccupied, hlayout, hbit, decide_eq_true hi, Bool.and_self]

/-- The cursor over buckets has nothing before `start` to come, and is in a region up to `stop`. -/
structure Buckets.At (table : Table) (start : Nat) (cursor : Table.Buckets) : Prop where
  same : cursor.regions.table = table
  begins : cursor.current.start = start
  le : start ≤ cursor.current.stop
  position : cursor.regions.position = cursor.current.stop
  run : ∀ i, start ≤ i → i < cursor.current.stop → table.isOccupied i = true

theorem at_buckets (table : Table) : Buckets.At table 0 table.buckets :=
  ⟨rfl, rfl, le_refl _, rfl, fun _ _ hi => absurd hi (Nat.not_lt_zero _)⟩

theorem Buckets.At.next? {cursor : Buckets} (h : Buckets.At table start cursor) :
    FirstFrom table.isOccupied start (cursor.next?.map Prod.fst) ∧
      ∀ b behind, cursor.next? = some (b, behind) → Buckets.At table (b + 1) behind := by
  obtain ⟨htable, hstart, hle, hposition, hrun⟩ := h
  rw [Buckets.next?]
  by_cases hin : cursor.current.start < cursor.current.stop
  · rw [if_pos hin]
    rw [hstart] at hin ⊢
    refine ⟨⟨le_refl _, hrun start (le_refl _) hin, fun i hi hlt => by omega⟩, ?_⟩
    rintro _ _ ⟨⟩
    exact ⟨htable, rfl, hin, hposition, fun i hi => hrun i (by omega)⟩
  · rw [if_neg hin, Regions.next?, htable]
    have hend : cursor.regions.position = start := by omega
    rw [hend]
    obtain ⟨hfirst, hregion⟩ := table.regionFrom_first start
    cases hfound : table.regionFrom start with
    | none =>
      rw [hfound] at hfirst
      refine ⟨hfirst, fun b behind hnext => ?_⟩
      cases hnext
    | some region =>
      rw [hfound] at hfirst
      refine ⟨hfirst, ?_⟩
      rintro _ _ ⟨⟩
      obtain ⟨hlt, hall⟩ := hregion region hfound
      exact ⟨rfl, rfl, hlt, rfl, fun i hi => hall i (by omega)⟩

end Table

/-! ### Lists that traversals yield -/

/-- The elements that successive steps give, up to the first that gives none. -/
inductive Yields (next? : σ → Except Fault (Option (α × σ))) : σ → List α → Prop
  | nil {s : σ} (hnext : next? s = .ok none) : Yields next? s []
  | cons {s t : σ} {x : α} {xs : List α} (hnext : next? s = .ok (some (x, t))) (htail : Yields next? t xs) :
      Yields next? s (x :: xs)

/-- As many elements as asked for are taken, as far as there are any, and the others are still to come. -/
theorem Yields.takeUpTo {next? : σ → Except Fault (Option (α × σ))} {s : σ} {xs : List α}
    (h : Yields next? s xs) : ∀ n, ∃ t, takeUpTo next? n s = .ok (xs.take n, t) ∧ Yields next? t (xs.drop n) := by
  induction h with
  | nil hnext =>
    rintro (_ | n)
    · exact ⟨_, rfl, .nil hnext⟩
    · exact ⟨_, by rw [RobinHood.takeUpTo, hnext]; rfl, .nil hnext⟩
  | cons hnext htail ih =>
    rintro (_ | n)
    · exact ⟨_, rfl, .cons hnext htail⟩
    · obtain ⟨t, ht, hrest⟩ := ih n
      exact ⟨t, by rw [RobinHood.takeUpTo, hnext]; simp [bind, Except.bind, ht, pure, Except.pure], hrest⟩

theorem Yields.takeUpTo_all {next? : σ → Except Fault (Option (α × σ))} {s : σ} {xs : List α}
    (h : Yields next? s xs) {n : Nat} (hn : xs.length ≤ n) : ∃ t, RobinHood.takeUpTo next? n s = .ok (xs, t) := by
  obtain ⟨t, ht, -⟩ := h.takeUpTo n
  rw [List.take_of_length_le hn] at ht
  exact ⟨t, ht⟩

/-- Steps that keep a property of the state, and do not fail in such states, are taken as often as asked. -/
theorem exists_takeUpTo {next? : σ → Except Fault (Option (α × σ))} {P : σ → Prop}
    (hstep : ∀ s, P s → next? s = .ok none ∨ ∃ x t, next? s = .ok (some (x, t)) ∧ P t) :
    ∀ (n : Nat) {s : σ}, P s → ∃ xs t, takeUpTo next? n s = .ok (xs, t) ∧ P t := by
  intro n
  induction n with
  | zero => exact fun {s} hs => ⟨[], s, rfl, hs⟩
  | succ n ih =>
    intro s hs
    obtain hnone | ⟨x, t, hsome, ht⟩ := hstep s hs
    · exact ⟨[], s, by rw [takeUpTo, hnone]; rfl, hs⟩
    · obtain ⟨xs, u, hrest, hu⟩ := ih ht
      exact ⟨x :: xs, u, by rw [takeUpTo, hsome]; simp [bind, Except.bind, hrest, pure, Except.pure], hu⟩

/-- Steps that give the elements of a list, from the `k`-th on in a state that is at the `k`-th. -/
theorem exists_takeUpTo_at {next? : σ → Except Fault (Option (α × σ))} {At : Nat → σ → Prop} {xs : List α}
    (hstep : ∀ k s x, At k s → xs[k]? = some x → ∃ t, next? s = .ok (some (x, t)) ∧ At (k + 1) t)
    (hstop : ∀ k s, At k s → xs[k]? = none → next? s = .ok none) :
    ∀ (n : Nat) {k : Nat} {s : σ}, At k s → k ≤ xs.length →
      ∃ t, takeUpTo next? n s = .ok ((xs.drop k).take n, t) ∧ At (min (k + n) xs.length) t := by
  intro n
  induction n with
  | zero => exact fun {k s} hs hk => ⟨s, rfl, by rwa [Nat.add_zero, Nat.min_eq_left hk]⟩
  | succ n ih =>
    intro k s hs hk
    cases hx : xs[k]? with
    | none =>
      have hend : k = xs.length := Nat.le_antisymm hk (List.getElem?_eq_none_iff.mp hx)
      refine ⟨s, by rw [takeUpTo, hstop k s hs hx, hend, List.drop_length]; rfl, ?_⟩
      rwa [Nat.min_eq_right (by omega), ← hend]
    | some x =>
      obtain ⟨t, hnext, ht⟩ := hstep k s x hs hx
      obtain ⟨hlt, hget⟩ := List.getElem?_eq_some_iff.mp hx
      obtain ⟨u, hrest, hu⟩ := ih ht hlt
      refine ⟨u, ?_, by rwa [Nat.add_right_comm] at hu⟩
      rw [takeUpTo, hnext, List.drop_eq_getElem_cons hlt, hget, List.take_succ_cons]
      simp [bind, Except.bind, hrest, pure, Except.pure]

/-- A traversal pays the visits, each to a bucket, in their order, and no more however often it is asked. At any time
`bucket?` is the bucket that is visited next, and `remaining` the exact number of visits to come. -/
def Traverses (next? : σ → Except Fault (Option (α × σ))) (bucket? : σ → Option Nat) (remaining : σ → Nat) (s : σ)
    (visits : List (Nat × α)) : Prop :=
  ∀ n, ∃ behind, takeUpTo next? n s = .ok ((visits.take n).map Prod.snd, behind) ∧
    bucket? behind = visits[n]?.map Prod.fst ∧ remaining behind = visits.length - n ∧
    (visits.length ≤ n → ∀ k, takeUpTo next? k behind = .ok ([], behind))

theorem takeUpTo_of_none {next? : σ → Except Fault (Option (α × σ))} {s : σ} (h : next? s = .ok none) (n : Nat) :
    takeUpTo next? n s = .ok ([], s) := by
  cases n with
  | zero => rfl
  | succ n =>
    rw [takeUpTo, h]
    rfl

section Steps

variable {next? : σ → Except Fault (Option (α × σ))} {s : σ} {visits : List (Nat × α)} {At : Nat → σ → Prop}
  (hstep : ∀ k s visit, At k s → visits[k]? = some visit → ∃ t, next? s = .ok (some (visit.2, t)) ∧ At (k + 1) t)
  (hstop : ∀ k s, At k s → visits[k]? = none → next? s = .ok none) (hs : At 0 s)

include hstep hstop hs

theorem exists_takeUpTo_visits (n : Nat) : ∃ behind, takeUpTo next? n s = .ok ((visits.take n).map Prod.snd, behind) ∧
    At (min n visits.length) behind := by
  have hgive : ∀ k s x, At k s → (visits.map Prod.snd)[k]? = some x →
      ∃ t, next? s = .ok (some (x, t)) ∧ At (k + 1) t := by
    intro k s x hs hx
    rw [List.getElem?_map, Option.map_eq_some_iff] at hx
    obtain ⟨visit, hvisit, rfl⟩ := hx
    exact hstep k s visit hs hvisit
  have hend : ∀ k s, At k s → (visits.map Prod.snd)[k]? = none → next? s = .ok none := by
    intro k s hs hnone
    rw [List.getElem?_map, Option.map_eq_none_iff] at hnone
    exact hstop k s hs hnone
  obtain ⟨behind, htaken, hat⟩ := exists_takeUpTo_at hgive hend n hs (Nat.zero_le _)
  rw [List.drop_zero, ← List.map_take] at htaken
  rw [Nat.zero_add, List.length_map] at hat
  exact ⟨behind, htaken, hat⟩

theorem Traverses.of_at {bucket? : σ → Option Nat} {remaining : σ → Nat}
    (hbucket : ∀ k s, At k s → bucket? s = visits[k]?.map Prod.fst)
    (hremaining : ∀ k s, At k s → remaining s = visits.length - k) : Traverses next? bucket? remaining s visits := by
  intro n
  obtain ⟨behind, htaken, hat⟩ := exists_takeUpTo_visits hstep hstop hs n
  refine ⟨behind, htaken, ?_, ?_, fun hall => takeUpTo_of_none (hstop _ behind hat ?_)⟩
  · rw [hbucket _ behind hat]
    by_cases hn : n ≤ visits.length
    · rw [Nat.min_eq_left hn]
    · rw [Nat.min_eq_right (by omega), List.getElem?_eq_none (by omega), List.getElem?_eq_none (by omega)]
  · rw [hremaining _ behind hat]
    omega
  · rw [Nat.min_eq_right hall]
    exact List.getElem?_eq_none (le_refl _)

end Steps

/-- What `f` has from `start` on, below `n`. -/
def listFrom (f : Nat → Option α) (n start : Nat) : List α :=
  (List.range' start (n - start)).filterMap f

theorem listFrom_of_none {f : Nat → Option α} {n start : Nat} (h : ∀ i, start ≤ i → f i = none) :
    listFrom f n start = [] := by
  rw [listFrom, List.filterMap_eq_nil_iff]
  intro i hi
  exact h i (List.mem_range'_1.mp hi).1

theorem listFrom_of_first {f : Nat → Option α} {n start b : Nat} {x : α} (hle : start ≤ b) (hlt : b < n)
    (hx : f b = some x) (hnone : ∀ i, start ≤ i → i < b → f i = none) :
    listFrom f n start = x :: listFrom f n (b + 1) := by
  have hsplit : List.range' start (n - start) =
      List.range' start (b - start) ++ b :: List.range' (b + 1) (n - (b + 1)) := by
    rw [← List.range'_succ, show n - (b + 1) + 1 = n - b by omega,
      show n - start = (b - start) + (n - b) by omega, ← List.range'_append_1, show start + (b - start) = b by omega]
  have hskip : (List.range' start (b - start)).filterMap f = [] := by
    rw [List.filterMap_eq_nil_iff]
    intro i hi
    obtain ⟨hlo, hhi⟩ := List.mem_range'_1.mp hi
    exact hnone i hlo (by omega)
  rw [listFrom, hsplit, List.filterMap_append, hskip, List.filterMap_cons, hx]
  rfl

/-- What `f` has from `start` on, below `n`, each with its position. -/
def visitsFrom (f : Nat → Option α) (n start : Nat) : List (Nat × α) :=
  listFrom (fun i => (f i).map (Prod.mk i)) n start

section Visits

variable {f : Nat → Option α} {n start b : Nat} {x : α}

theorem map_snd_visitsFrom (f : Nat → Option α) (n start : Nat) :
    (visitsFrom f n start).map Prod.snd = listFrom f n start := by
  rw [visitsFrom, listFrom, List.map_filterMap, listFrom]
  congr 1
  funext i
  rw [Option.map_map]
  exact Option.map_id'

theorem visitsFrom_map {β : Type} (g : Nat → α → β) (f : Nat → Option α) (n start : Nat) :
    visitsFrom (fun i => (f i).map (g i)) n start =
      (visitsFrom f n start).map fun visit => (visit.1, g visit.1 visit.2) := by
  rw [visitsFrom, visitsFrom, listFrom, listFrom, List.map_filterMap]
  congr 1
  funext i
  rw [Option.map_map, Option.map_map]
  rfl

theorem visitsFrom_congr {g : Nat → Option α} (h : ∀ i, start ≤ i → f i = g i) :
    visitsFrom f n start = visitsFrom g n start := by
  apply List.filterMap_congr
  intro i hi
  rw [h i (List.mem_range'_1.mp hi).1]

theorem mem_visitsFrom : (b, x) ∈ visitsFrom f n start ↔ start ≤ b ∧ b < n ∧ f b = some x := by
  rw [visitsFrom, listFrom, List.mem_filterMap]
  constructor
  · rintro ⟨i, hi, hvisit⟩
    obtain ⟨y, hy, hpair⟩ := Option.map_eq_some_iff.mp hvisit
    obtain ⟨rfl, rfl⟩ := Prod.mk.inj hpair
    obtain ⟨hlo, hhi⟩ := List.mem_range'_1.mp hi
    exact ⟨hlo, by omega, hy⟩
  · rintro ⟨hlo, hhi, hx⟩
    exact ⟨b, List.mem_range'_1.mpr (by omega), by rw [hx]; rfl⟩

theorem pairwise_visitsFrom (f : Nat → Option α) (n start : Nat) :
    (visitsFrom f n start).Pairwise fun visit later => visit.1 < later.1 := by
  rw [visitsFrom, listFrom, List.pairwise_filterMap]
  refine (List.pairwise_lt_range' (s := start) (n := n - start)).imp fun {i j} hij visit hvisit later hlater => ?_
  obtain ⟨x, -, rfl⟩ := Option.map_eq_some_iff.mp hvisit
  obtain ⟨y, -, rfl⟩ := Option.map_eq_some_iff.mp hlater
  exact hij

theorem visitsFrom_of_first {found : Option Nat} (hbound : ∀ i x, f i = some x → i < n)
    (hfirst : FirstFrom (fun i => (f i).isSome) start found) :
    (found = none ∧ visitsFrom f n start = []) ∨
      ∃ b x, found = some b ∧ start ≤ b ∧ f b = some x ∧
        visitsFrom f n start = (b, x) :: visitsFrom f n (b + 1) := by
  cases found with
  | none =>
    left
    refine ⟨rfl, listFrom_of_none fun i hi => ?_⟩
    rw [Option.map_eq_none_iff]
    exact Option.isNone_iff_eq_none.mp (Option.isSome_eq_false_iff.mp (hfirst i hi))
  | some b =>
    right
    obtain ⟨hle, hsome, hmin⟩ := hfirst
    obtain ⟨x, hx⟩ := Option.isSome_iff_exists.mp hsome
    refine ⟨b, x, rfl, hle, hx, listFrom_of_first hle (hbound b x hx) (by rw [hx]; rfl) fun i hi hib => ?_⟩
    rw [Option.map_eq_none_iff]
    exact Option.isNone_iff_eq_none.mp (Option.isSome_eq_false_iff.mp (hmin i hi hib))

end Visits

inductive Visits (next? : σ → Except Fault (Option (α × σ))) (bucket? : σ → Option Nat) (remaining : σ → Nat) :
    σ → List (Nat × α) → Prop
  | nil {s : σ} (hnext : next? s = .ok none) (hbucket : bucket? s = none) (hremaining : remaining s = 0) :
      Visits next? bucket? remaining s []
  | cons {s t : σ} {b : Nat} {x : α} {visits : List (Nat × α)} (hnext : next? s = .ok (some (x, t)))
      (hbucket : bucket? s = some b) (hremaining : remaining s = visits.length + 1)
      (htail : Visits next? bucket? remaining t visits) : Visits next? bucket? remaining s ((b, x) :: visits)

namespace Visits

variable {next? : σ → Except Fault (Option (α × σ))} {bucket? : σ → Option Nat} {remaining : σ → Nat} {s : σ}
  {visits : List (Nat × α)}

theorem yields (h : Visits next? bucket? remaining s visits) : Yields next? s (visits.map Prod.snd) := by
  induction h with
  | nil hnext => exact .nil hnext
  | cons hnext _ _ _ ih => exact .cons hnext ih

theorem remaining_eq (h : Visits next? bucket? remaining s visits) : remaining s = visits.length := by
  cases h with
  | nil _ _ hremaining => exact hremaining
  | cons _ _ hremaining _ => exact hremaining

theorem bucket_eq (h : Visits next? bucket? remaining s visits) : bucket? s = visits.head?.map Prod.fst := by
  cases h with
  | nil _ hbucket _ => exact hbucket
  | cons _ hbucket _ _ => exact hbucket

theorem of_drop {k : Nat} {visit : Nat × α} (h : Visits next? bucket? remaining s (visits.drop k))
    (hvisit : visits[k]? = some visit) :
    ∃ t, next? s = .ok (some (visit.2, t)) ∧ Visits next? bucket? remaining t (visits.drop (k + 1)) := by
  obtain ⟨hlt, hget⟩ := List.getElem?_eq_some_iff.mp hvisit
  rw [List.drop_eq_getElem_cons hlt, hget] at h
  cases h with
  | cons hnext _ _ htail => exact ⟨_, hnext, htail⟩

theorem of_drop_end {k : Nat} (h : Visits next? bucket? remaining s (visits.drop k)) (hend : visits[k]? = none) :
    next? s = .ok none := by
  rw [List.drop_of_length_le (List.getElem?_eq_none_iff.mp hend)] at h
  cases h with
  | nil hnext _ _ => exact hnext

theorem traverses (h : Visits next? bucket? remaining s visits) : Traverses next? bucket? remaining s visits := by
  apply Traverses.of_at (fun _ _ _ => of_drop) (fun _ _ => of_drop_end) h
  · intro k t ht
    rw [ht.bucket_eq, List.head?_drop]
  · intro k t ht
    rw [ht.remaining_eq, List.length_drop]

end Visits

/-- A traversal that always steps to the next position where `f` has something visits the positions where there is
something. What it takes to be ready for the positions from `start` on is up to the traversal. -/
theorem visits_of_steps {next? : σ → Except Fault (Option (α × σ))} {bucket? : σ → Option Nat} {remaining : σ → Nat}
    {f : Nat → Option α} {n : Nat} (Ready : Nat → σ → Prop) (hbound : ∀ i x, f i = some x → i < n)
    (hfirst : ∀ start s, Ready start s → FirstFrom (fun i => (f i).isSome) start (bucket? s))
    (hremaining : ∀ start s, Ready start s → remaining s = (visitsFrom f n start).length)
    (hstop : ∀ start s, Ready start s → bucket? s = none → next? s = .ok none)
    (hgo : ∀ start s b x, Ready start s → bucket? s = some b → start ≤ b → f b = some x →
      remaining s = (visitsFrom f n (b + 1)).length + 1 → ∃ t, next? s = .ok (some (x, t)) ∧ Ready (b + 1) t)
    {start : Nat} {s : σ} (h : Ready start s) : Visits next? bucket? remaining s (visitsFrom f n start) := by
  induction hlen : n - start using Nat.strongRecOn generalizing start s with
  | ind len ih =>
    have hcount := hremaining start s h
    obtain ⟨hnone, hlist⟩ | ⟨b, x, hsome, hle, hx, hlist⟩ := visitsFrom_of_first hbound (hfirst start s h)
    · rw [hlist] at hcount ⊢
      exact .nil (hstop start s h hnone) hnone hcount
    · rw [hlist, List.length_cons] at hcount
      obtain ⟨t, hnext, hready⟩ := hgo start s b x h hsome hle hx hcount
      have hlt := hbound b x hx
      rw [hlist]
      exact .cons hnext hsome hcount (ih _ (by omega) hready rfl)

/-! ### Traversals of a container -/

def Cursor.bucket? (cursor : Cursor α) : Option Nat :=
  cursor.buckets.next?.map Prod.fst

def OwningCursor.bucket? (cursor : OwningCursor σ α) : Option Nat :=
  cursor.table.firstOccupiedFrom cursor.position

variable {table : Table} {f : Nat → Option α} {n : Nat}

theorem Cursor.visits {read : Nat → Except Fault α} (hocc : ∀ i, table.isOccupied i = (f i).isSome)
    (hcount : table.count = (visitsFrom f n 0).length) (hbound : ∀ i x, f i = some x → i < n)
    (hread : ∀ i x, f i = some x → read i = .ok x) :
    Visits Cursor.next? Cursor.bucket? Cursor.remaining (.start table read) (visitsFrom f n 0) := by
  refine visits_of_steps (fun start cursor => Table.Buckets.At table start cursor.buckets ∧
      cursor.read = read ∧ cursor.remaining = (visitsFrom f n start).length)
    hbound ?_ (fun _ _ hready => hready.2.2) ?_ ?_ ⟨table.at_buckets, rfl, hcount⟩
  · rintro start cursor ⟨hat, -, -⟩
    rw [← funext hocc]
    exact hat.next?.1
  · rintro start cursor - hnone
    rw [Cursor.next?, Option.map_eq_none_iff.mp hnone]
    rfl
  · rintro start cursor b x ⟨hat, rfl, -⟩ hbucket - hx hremaining
    obtain ⟨⟨c, behind⟩, hbuckets, rfl⟩ := Option.map_eq_some_iff.mp hbucket
    refine ⟨{ cursor with buckets := behind, remaining := cursor.remaining - 1 }, ?_,
      hat.next?.2 _ _ hbuckets, rfl, ?_⟩
    · rw [Cursor.next?, hbuckets]
      simp [hremaining, hread _ _ hx, bind, Except.bind, pure, Except.pure]
    · rw [hremaining, Nat.add_sub_cancel]

/-- An owning cursor takes out what is in the occupied buckets, as long as taking something out does not disturb
what is in the buckets behind. -/
theorem OwningCursor.visits {store : σ} {takeAt : Nat → σ → Except Fault (α × σ)} {Holds : Nat → σ → Prop}
    (hocc : ∀ i, table.isOccupied i = (f i).isSome) (hcount : table.count = (visitsFrom f n 0).length)
    (hbound : ∀ i x, f i = some x → i < n) (hholds : Holds 0 store)
    (htake : ∀ start b x store, Holds start store → start ≤ b → f b = some x →
      ∃ rest, takeAt b store = .ok (x, rest) ∧ Holds (b + 1) rest) :
    Visits OwningCursor.next? OwningCursor.bucket? OwningCursor.remaining (.start table store takeAt)
      (visitsFrom f n 0) := by
  refine visits_of_steps (fun start cursor => cursor.table = table ∧ cursor.takeAt = takeAt ∧
      cursor.position = start ∧ Holds start cursor.store ∧ cursor.remaining = (visitsFrom f n start).length)
    hbound ?_ (fun _ _ hready => hready.2.2.2.2) ?_ ?_ ⟨rfl, rfl, rfl, hholds, hcount⟩
  · rintro start cursor ⟨rfl, -, rfl, -, -⟩
    rw [← funext hocc]
    exact cursor.table.firstOccupiedFrom_first cursor.position
  · rintro start cursor - hnone
    rw [OwningCursor.next?, show cursor.table.firstOccupiedFrom cursor.position = none from hnone]
    rfl
  · rintro start cursor b x ⟨rfl, rfl, rfl, hstore, -⟩ hbucket hle hx hremaining
    obtain ⟨rest, htaken, hrest⟩ := htake _ b x _ hstore hle hx
    refine ⟨{ cursor with store := rest, position := b + 1, remaining := cursor.remaining - 1 }, ?_,
      rfl, rfl, rfl, hrest, ?_⟩
    · rw [OwningCursor.next?, show cursor.table.firstOccupiedFrom cursor.position = some b from hbucket]
      simp [hremaining, htaken, bind, Except.bind, pure, Except.pure]
    · rw [hremaining, Nat.add_sub_cancel]

theorem Yields.toList_cursor {cursor : Cursor α} {xs : List α} (h : Yields Cursor.next? cursor xs)
    (hle : xs.length ≤ cursor.buckets.regions.table.endBucket + 1) : cursor.toList = .ok xs := by
  obtain ⟨behind, htake⟩ := h.takeUpTo_all hle
  change Prod.fst <$> RobinHood.takeUpTo Cursor.next? _ cursor = _
  rw [htake]
  rfl

theorem Yields.toList_owningCursor {cursor : OwningCursor σ α} {xs : List α}
    (h : Yields OwningCursor.next? cursor xs) (hle : xs.length ≤ cursor.table.endBucket + 1) :
    cursor.toList = .ok xs := by
  obtain ⟨behind, htake⟩ := h.takeUpTo_all hle
  change Prod.fst <$> RobinHood.takeUpTo OwningCursor.next? _ cursor = _
  rw [htake]
  rfl

def Slots.placements (slots : Slots α) : List (Nat × α) :=
  visitsFrom slots.occupant slots.size 0

namespace Seating

variable {β : Type} {s : Seating β}

theorem InStep.count_le_endBucket (h : s.InStep) : s.table.count ≤ s.table.endBucket := by
  cases hlayout : s.table.layout with
  | dense => simp only [Table.endBucket, hlayout, le_refl]
  | probed occupancy =>
    have hlt := (h.shaped.lt_bucketCount (not_isDense_of_layout hlayout)).1
    have hle := h.count_le
    simp only [Table.bucketCount, hlayout] at hlt
    simp only [Table.endBucket, hlayout]
    omega

theorem InStep.count_eq_length (h : s.InStep) (hf : ∀ i, (f i).isSome = (s.slots.occupant i).isSome) :
    s.table.count = (visitsFrom f s.slots.size 0).length := by
  rw [h.count, Slots.length_elements_eq_countP, visitsFrom, listFrom, List.length_filterMap_eq_countP, Nat.sub_zero,
    ← List.range_eq_range']
  exact List.countP_congr fun i _ => by rw [Option.isSome_map, hf]

private theorem lt_size_of_held (hf : ∀ i, (f i).isSome = (s.slots.occupant i).isSome) (i : Nat) (x : α)
    (hx : f i = some x) : i < s.slots.size := by
  have hsome := hf i
  rw [hx, Option.isSome_some, eq_comm, Option.isSome_iff_exists] at hsome
  exact Slots.lt_size_of_occupant hsome.choose_spec

/-- A cursor over the buckets of a table in step with its slots visits the elements, of which it reads what `g`
makes of them. -/
theorem InStep.visits_cursor {g : Nat → β → α} {read : Nat → Except Fault α} (h : s.InStep)
    (hread : ∀ b x, s.slots.occupant b = some x → read b = .ok (g b x)) :
    Visits Cursor.next? Cursor.bucket? Cursor.remaining (.start s.table read)
      (s.slots.placements.map fun visit => (visit.1, g visit.1 visit.2)) := by
  have hf : ∀ i, ((s.slots.occupant i).map (g i)).isSome = (s.slots.occupant i).isSome := fun _ => Option.isSome_map
  rw [Slots.placements, ← visitsFrom_map]
  apply Cursor.visits (fun i => (h.occupied i).trans (hf i).symm) (h.count_eq_length hf) (lt_size_of_held hf)
  intro b y hy
  obtain ⟨x, hx, rfl⟩ := Option.map_eq_some_iff.mp hy
  exact hread b x hx

theorem InStep.visits_owningCursor (h : s.InStep) (store : σ) (takeAt : Nat → σ → Except Fault (β × σ))
    (Holds : Nat → σ → Prop) (hholds : Holds 0 store)
    (htake : ∀ start b x store, Holds start store → start ≤ b → s.slots.occupant b = some x →
      ∃ rest, takeAt b store = .ok (x, rest) ∧ Holds (b + 1) rest) :
    Visits OwningCursor.next? OwningCursor.bucket? OwningCursor.remaining (.start s.table store takeAt)
      s.slots.placements :=
  OwningCursor.visits h.occupied (h.count_eq_length fun _ => rfl) (lt_size_of_held fun _ => rfl) hholds htake

theorem InStep.length_le_endBucket (h : s.InStep) : s.slots.elements.length ≤ s.table.endBucket + 1 := by
  rw [← h.count]
  exact Nat.le_succ_of_le h.count_le_endBucket

end Seating

theorem Slots.map_snd_placements (slots : Slots α) : slots.placements.map Prod.snd = slots.elements := by
  rw [placements, map_snd_visitsFrom, listFrom, Nat.sub_zero, ← List.range_eq_range', elements_eq_filterMap]

theorem Slots.mem_placements {slots : Slots α} {b : Nat} {x : α} :
    (b, x) ∈ slots.placements ↔ slots.occupant b = some x := by
  rw [placements, mem_visitsFrom]
  exact ⟨fun h => h.2.2, fun hx => ⟨Nat.zero_le b, lt_size_of_occupant hx, hx⟩⟩

theorem Slots.pairwise_placements (slots : Slots α) :
    slots.placements.Pairwise fun visit later => visit.1 < later.1 :=
  pairwise_visitsFrom _ _ _

end RobinHood
