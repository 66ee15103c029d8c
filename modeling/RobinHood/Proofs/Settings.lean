import RobinHood.Proofs.Calls.Dicts
import RobinHood.Proofs.Calls.Sets

/-!
# What a fixed container is made with

A fixed container keeps the capacity, the hasher and the seed that it was made with, whatever is done to it and whether
or not that stops. No state is excepted, and nothing is asked of the hashes.
-/

namespace RobinHood

open RobinHood.Action

variable {σ τ α β ι K V ε R S : Type}

/-! ### Actions that spare a part of the state -/

/-- In the state `s`, the action leaves a part of the state as it is, whether or not it stops. -/
def Action.Spares (part : σ → τ) (action : Action σ α) (s : σ) : Prop :=
  part (action.runOn s).2 = part s

namespace Action.Spares

variable {part : σ → τ} {action : Action σ α} {s : σ}

theorem get_bind {next : σ → Action σ β} (h : Spares part (next s) s) : Spares part (get >>= next) s := h

theorem liftM_bind {made : Except Fault α} {next : α → Action σ β}
    (h : ∀ x, made = .ok x → Spares part (next x) s) : Spares part (liftM made >>= next) s := by
  cases made with
  | ok x => exact h x rfl
  | error fault => rfl

theorem bind {next : α → Action σ β} (h : Spares part action s) (hnext : ∀ x t, Spares part (next x) t) :
    Spares part (action >>= next) s := by
  rw [Spares] at h ⊢
  cases hrun : action.runOn s with
  | mk outcome t =>
    rw [hrun] at h
    cases outcome with
    | ok x =>
      rw [runOn_bind_ok hrun, ← h]
      exact hnext x t
    | error fault =>
      rw [runOn_bind_error hrun]
      exact h

theorem lift_bind {next : α → Action σ β} (h : Spares part action s) (hnext : ∀ x t, Spares part (next x) t) :
    Spares part (Action.lift action >>= next) s :=
  bind h hnext

theorem of_liftM (made : Except Fault α) (s : σ) : Spares part (liftM made) s := rfl

theorem call_bind {x : Id α} {next : α → Action σ β} (h : Spares part (next x) s) :
    Spares part (liftM x >>= next) s := h

theorem map (h : Spares part action s) (f : α → β) : Spares part (do return f (← action)) s :=
  h.bind fun _ _ => rfl

theorem forM {action : ι → Action σ β} (h : ∀ i t, Spares part (action i) t) (items : List ι) :
    ∀ s, Spares part (items.forM fun i => do let _ ← action i) s := by
  induction items with
  | nil => exact fun _ => rfl
  | cons i rest ih =>
    intro s
    rw [forM_cons]
    exact (h i s).bind fun _ => ih

end Action.Spares

/-! ### Tables -/

theorem exists_of_bind_eq_ok {made : Except Fault α} {next : α → Except Fault β} {y : β}
    (h : made >>= next = .ok y) : ∃ x, made = .ok x ∧ next x = .ok y := by
  cases made with
  | ok x => exact ⟨x, rfl, h⟩
  | error fault => cases h

theorem eq_ok_of_mapError {made : Except Fault α} {report : Fault → Fault} {x : α}
    (h : made.mapError report = .ok x) : made = .ok x := by
  cases made with
  | ok y => exact h
  | error fault => cases h

namespace Table

variable {table t : Table} {hash : UInt64} {hashAt : Nat → Except Fault UInt64} {bucket : Nat}

theorem place_like {placed : Placement} (h : table.place hash hashAt = .ok placed) : Like placed.table table := by
  rw [place] at h
  cases hlayout : table.layout with
  | dense =>
    simp only [hlayout] at h
    cases h
    exact ⟨rfl, rfl⟩
  | probed occupancy =>
    simp only [hlayout] at h
    obtain ⟨_, -, h⟩ := exists_of_bind_eq_ok h
    obtain ⟨_, -, h⟩ := exists_of_bind_eq_ok h
    cases h
    exact ⟨rfl, rfl⟩

theorem vacate_like (h : table.vacate bucket = .ok t) : Like t table := by
  rw [vacate] at h
  split at h
  all_goals
    obtain ⟨_, -, h⟩ := exists_of_bind_eq_ok h
    dsimp only at h
    split at h
    · cases h
    · cases h
      exact ⟨rfl, rfl⟩

theorem close_like {closed : Table × List Move} (h : table.close bucket hashAt = .ok closed) : Like closed.1 table := by
  rw [close] at h
  cases hlayout : table.layout with
  | dense =>
    simp only [hlayout] at h
    cases h
    exact ⟨rfl, rfl⟩
  | probed occupancy =>
    simp only [hlayout] at h
    obtain ⟨_, -, h⟩ := exists_of_bind_eq_ok h
    cases h
    exact ⟨rfl, rfl⟩

theorem clear_like (table : Table) : Like table.clear table :=
  ⟨capacity_clear table, seed_clear table⟩

theorem Like.trans {u : Table} (h : Like t u) (h' : Like u table) : Like t table :=
  ⟨h.capacity.trans h'.capacity, h.seed.trans h'.seed⟩

end Table

namespace Seating

variable {s : Seating α} {hashOf : α → UInt64} {x : α} {hash : UInt64} {bucket : Nat}

theorem seat_like {seated : Seated α} (h : s.seat hashOf x hash = .ok seated) :
    Table.Like seated.seating.table s.table := by
  obtain ⟨_, hplace, h⟩ := exists_of_bind_eq_ok h
  obtain ⟨_, -, h⟩ := exists_of_bind_eq_ok h
  cases h
  exact Table.place_like hplace

theorem unseat_like {unseated : Unseated α} (h : s.unseat hashOf bucket = .ok unseated) :
    Table.Like unseated.seating.table s.table := by
  obtain ⟨_, hvacate, h⟩ := exists_of_bind_eq_ok h
  obtain ⟨_, -, h⟩ := exists_of_bind_eq_ok h
  obtain ⟨_, hclose, h⟩ := exists_of_bind_eq_ok h
  obtain ⟨_, -, h⟩ := exists_of_bind_eq_ok h
  cases h
  exact (Table.close_like hclose).trans (Table.vacate_like hvacate)

end Seating

/-! ### Fixed sets -/

namespace FixedSet

variable {s : FixedSet K} {key : K} {hash : UInt64} {bucket : Nat}

/-- What a set is made with. -/
def settings (s : FixedSet K) : Nat × Hasher K × UInt64 :=
  (s.capacity, s.hasher, s.table.seed)

theorem settings_congr {seating : Seating K} (h : Table.Like seating.table s.table) :
    settings { s with toSeating := seating } = s.settings := by
  rw [settings, settings, capacity, capacity, h.capacity, h.seed]

theorem insertNew_spares : (insertNew key hash).Spares settings s := by
  refine .get_bind ?_
  split
  · rfl
  · exact .liftM_bind fun seated hseat => settings_congr (Seating.seat_like hseat)

theorem removeAt_spares : (removeAt bucket).Spares settings s :=
  .get_bind (.liftM_bind fun _ hunseat => settings_congr (Seating.unseat_like hunseat))

theorem replaceAt_spares : (replaceAt bucket key).Spares settings s :=
  .get_bind (.liftM_bind fun _ _ => rfl)

theorem removeAll_spares : removeAll.Spares settings s := by
  rw [Action.Spares, removeAll, runOn_modify]
  split
  · rfl
  · exact settings_congr (Table.clear_like s.table)

variable [BEq K]

theorem insert_spares (key : K) (s : FixedSet K) : (insert key).Spares settings s := by
  refine .get_bind (.liftM_bind fun probe _ => ?_)
  split
  · rfl
  · exact insertNew_spares.map _

theorem tryInsert_spares (key : K) (s : FixedSet K) : (tryInsert key).Spares settings s := by
  refine .get_bind (.liftM_bind fun probe _ => ?_)
  split
  · rfl
  · refine .get_bind ?_
    split
    · rfl
    · exact insertNew_spares.map _

theorem update_spares (key : K) (s : FixedSet K) : (update key).Spares settings s := by
  refine .get_bind (.liftM_bind fun probe _ => ?_)
  split
  · exact replaceAt_spares.map _
  · exact insertNew_spares.map _

theorem remove_spares (key : K) (s : FixedSet K) : (remove key).Spares settings s := by
  refine .get_bind (.liftM_bind fun probe _ => ?_)
  split
  · exact removeAt_spares.map _
  · rfl

theorem extend_spares (keys : List K) (s : FixedSet K) : (extend keys).Spares settings s :=
  .forM insert_spares keys s

theorem insertChunks_spares (produce : Producer K ε (StateM S)) (remaining : Nat) : ∀ (s : FixedSet K) (i : S),
    settings (((insertChunks produce remaining).runOn s).run i).1.2 = s.settings := by
  induction remaining using Nat.strongRecOn with
  | ind remaining ih =>
    intro s i
    by_cases hzero : remaining = 0
    · rw [insertChunks, if_pos hzero]
      rfl
    · rw [Upkeep.run_insertChunks hzero]
      obtain ⟨reply, i'⟩ := (produce (.vacant (min remaining Buffer.chunk))).run i
      cases reply with
      | error fault => rfl
      | ok filled =>
        obtain ⟨buffer, outcome⟩ := filled
        have hextend := extend_spares buffer.staged s
        rw [Action.Spares] at hextend
        dsimp only
        generalize (extend buffer.staged).runOn s = step at hextend
        obtain ⟨extended, t⟩ := step
        cases extended with
        | error fault => exact hextend
        | ok _ =>
          cases outcome with
          | error e => exact hextend
          | ok _ =>
            dsimp only
            split
            · exact hextend
            · have hchunk : 0 < min remaining Buffer.chunk := Nat.lt_min.mpr ⟨Nat.pos_of_ne_zero hzero, by decide⟩
              exact (ih _ (by omega) t i').trans hextend

theorem insertBatch_spares (produce : Producer K ε (StateM S)) (maximum : Nat) (s : FixedSet K) (i : S) :
    settings (((insertBatch maximum produce).runOn s).run i).1.2 = s.settings := by
  rw [Upkeep.run_insertBatch]
  split
  · rfl
  · split
    · rfl
    · exact insertChunks_spares produce maximum s i

/-- Whatever call is made, a set keeps its capacity, its hasher and its seed. -/
theorem carryOut_spares (call : Call K ε) (s : FixedSet K) : (carryOut call).Spares settings s := by
  cases call with
  | member call =>
    cases call with
    | insert key => exact (insert_spares key s).map _
    | update key => exact (update_spares key s).map _
    | remove key => exact (remove_spares key s).map _
  | tryInsert key => exact (tryInsert_spares key s).map _
  | removeAll => exact removeAll_spares
  | extend keys => exact extend_spares keys s
  | batch maximum stage =>
    have hbatch : Action.Spares settings
        (ActionT.ofStep fun s => ((insertBatch maximum stage.producer).runOn s |>.run 0).1) s :=
      insertBatch_spares stage.producer maximum s 0
    exact hbatch.map _

end FixedSet

/-! ### Fixed dictionaries -/

namespace FixedDict

variable {d : FixedDict K V} {key : K} {value : V} {hash : UInt64} {bucket : Nat}

def settings (d : FixedDict K V) : Nat × Hasher K × UInt64 :=
  d.keys.settings

theorem insertNew_spares : (insertNew key value hash).Spares settings d := by
  refine .get_bind ?_
  split
  · rfl
  · exact .liftM_bind fun _ hseat => .liftM_bind fun _ _ =>
      FixedSet.settings_congr (Seating.seat_like (eq_ok_of_mapError hseat))

theorem removeAt_spares : (removeAt bucket).Spares settings d :=
  .get_bind (.liftM_bind fun _ hunseat => .liftM_bind fun _ _ => .liftM_bind fun _ _ =>
    FixedSet.settings_congr (Seating.unseat_like hunseat))

theorem replaceIn_spares : (replaceIn bucket value).Spares settings d :=
  .get_bind (.liftM_bind fun _ _ => rfl)

theorem takeValue_spares : (takeValue bucket).Spares settings d :=
  .get_bind (.liftM_bind fun _ _ => rfl)

theorem putValue_spares : (putValue bucket value).Spares settings d :=
  .get_bind (.liftM_bind fun _ _ => rfl)

theorem editValues_spares (n : Nat) (edit : Nat → V → V) : (editValues n edit).Spares settings d :=
  .get_bind (.liftM_bind fun _ _ => rfl)

theorem editEntries_spares (n : Nat) (edit : Nat → V → V) : (editEntries n edit).Spares settings d :=
  .get_bind (.liftM_bind fun _ _ => rfl)

theorem replaceAt_spares : (replaceAt bucket value).Spares settings d :=
  .get_bind (.liftM_bind fun _ _ => replaceIn_spares)

theorem removeAll_spares : removeAll.Spares settings d := by
  rw [Action.Spares, removeAll, runOn_modify]
  split
  · rfl
  · exact FixedSet.settings_congr (Table.clear_like d.table)

variable [BEq K]

theorem insert_spares : (insert key value).Spares settings d := by
  refine .get_bind (.liftM_bind fun probe _ => ?_)
  split
  · rfl
  · exact insertNew_spares.map _

theorem tryInsert_spares : (tryInsert key value).Spares settings d := by
  refine .get_bind (.liftM_bind fun probe _ => ?_)
  split
  · rfl
  · refine .get_bind ?_
    split
    · rfl
    · exact insertNew_spares.map _

theorem update_spares (key : K) (value : V) (d : FixedDict K V) : (update key value).Spares settings d := by
  refine .get_bind (.liftM_bind fun probe _ => ?_)
  split
  · exact replaceIn_spares.map _
  · exact insertNew_spares.map _

theorem replace_spares : (replace key value).Spares settings d := by
  refine .get_bind (.liftM_bind fun probe _ => ?_)
  split
  · exact replaceIn_spares.map _
  · rfl

theorem removeEntry_spares : (removeEntry key).Spares settings d := by
  refine .get_bind (.liftM_bind fun probe _ => ?_)
  split
  · exact removeAt_spares.bind fun _ _ => .liftM_bind fun _ _ => rfl
  · rfl

theorem extend_spares (entries : List (K × V)) : (extend entries).Spares settings d := by
  have hupdate : ∀ (entry : K × V) (t : FixedDict K V), (update entry.1 entry.2).Spares settings t :=
    fun entry => update_spares entry.1 entry.2
  exact Action.Spares.forM hupdate entries d

theorem tryMemoize_spares (compute : K → Except Fault (Except ε V)) :
    Action.Spares settings (tryMemoize (m := Id) key compute) d := by
  refine .get_bind (.liftM_bind fun probe _ => ?_)
  split
  · exact .get_bind (.liftM_bind fun _ _ => rfl)
  · refine .get_bind ?_
    split
    · rfl
    · refine .call_bind (.liftM_bind fun answer _ => ?_)
      split
      · rfl
      · exact .lift_bind insertNew_spares fun _ _ => .get_bind (.liftM_bind fun _ _ => rfl)

theorem edit_spares (f : Option V → Edited V R) : Action.Spares settings (edit (m := Id) key f) d := by
  refine .get_bind (.liftM_bind fun probe _ => ?_)
  split
  · refine .call_bind (.liftM_bind fun answer _ => ?_)
    split
    · exact .lift_bind insertNew_spares fun _ _ => rfl
    · rfl
  · refine .lift_bind takeValue_spares fun value t => .call_bind ?_
    split
    · exact .lift_bind putValue_spares fun _ _ => .of_liftM _ _
    · exact .lift_bind removeAt_spares fun _ _ => .of_liftM _ _

theorem carryOut_spares (call : Call K V ε R) (d : FixedDict K V) : (carryOut call).Spares settings d := by
  cases call with
  | entry call =>
    cases call with
    | insert key value => exact insert_spares.map _
    | update key value => exact (update_spares key value d).map _
    | memoize key compute =>
      rw [carryOut, memoize_unlessAborted]
      refine Action.Spares.map ((tryMemoize_spares _).bind fun answer t => ?_) _
      cases answer with
      | ok value => rfl
      | error e => cases e
    | tryMemoize key compute => exact (tryMemoize_spares _).map _
    | edit key f => exact (edit_spares _).map _
    | remove key => exact (removeEntry_spares.map _).map _
    | removeEntry key => exact removeEntry_spares.map _
  | tryInsert key value => exact tryInsert_spares.map _
  | replace key value => exact replace_spares.map _
  | replaceAt index value => exact replaceAt_spares.map _
  | editValues n edit => exact (editValues_spares n edit).map _
  | editEntries n edit => exact (editEntries_spares n edit).map _
  | extend entries => exact extend_spares entries
  | removeAll => exact removeAll_spares

end FixedDict

end RobinHood
