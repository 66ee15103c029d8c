import RobinHood.Proofs.Calls.Sets

/-!
# Sessions with a producer

A producer is asked in a session for up to 16 keys at a time, as long as it fills the buffers it is given and keys
remain to be asked for. What a batch insertion leaves is what the keys of the session leave when they are inserted
one after the other; as no insertion takes the room of more than one key, there is room for all of them.
-/

namespace RobinHood

open RobinHood.Action

variable {K ε S : Type}

/-! ### What a caller can do -/

namespace Buffer

/-- What can become of a buffer in the hands of a caller. -/
inductive Handled (buffer : Buffer K) : Buffer K → Prop
  | untouched : Handled buffer buffer
  | push {before after : Buffer K} {key : K} (h : Handled buffer before) (hpush : before.push key = .ok after) :
      Handled buffer after
  | fillFrom {before : Buffer K} (h : Handled buffer before) (source : List K) :
      Handled buffer (before.fillFrom source).1

variable {buffer after : Buffer K}

theorem handled_of_foldlM (keys : List K) : ∀ {before : Buffer K}, buffer.Handled before →
    keys.foldlM push before = .ok after → buffer.Handled after := by
  induction keys with
  | nil =>
    intro before h hpushed
    obtain rfl := Except.ok.inj hpushed
    exact h
  | cons key keys ih =>
    intro before h hpushed
    rw [List.foldlM_cons] at hpushed
    cases hpush : before.push key with
    | error fault =>
      rw [hpush] at hpushed
      cases hpushed
    | ok pushed =>
      rw [hpush] at hpushed
      exact ih (h.push hpush) hpushed

theorem Handled.size_le (h : buffer.Handled after) (hsize : buffer.size ≤ buffer.limit) :
    after.limit = buffer.limit ∧ after.size ≤ buffer.limit := by
  induction h with
  | untouched => exact ⟨rfl, hsize⟩
  | push _ hpush ih =>
    obtain ⟨hlimit, hle⟩ := ih
    rw [Buffer.push] at hpush
    split at hpush
    · cases hpush
    · next hroom =>
      rw [isFull, beq_iff_eq, hlimit] at hroom
      obtain rfl := Except.ok.inj hpush
      refine ⟨hlimit, ?_⟩
      rw [size, List.length_append, List.length_singleton]
      exact Nat.lt_of_le_of_ne hle hroom
  | fillFrom _ source ih =>
    obtain ⟨hlimit, hle⟩ := ih
    refine ⟨hlimit, ?_⟩
    rw [Buffer.fillFrom, size, List.length_append, List.length_take, freeCapacity, hlimit]
    rw [size] at hle ⊢
    omega

end Buffer

namespace Producer

/-- The buffers that the producer answers are those that it was given, with keys staged. -/
def Handles (produce : Producer K ε (StateM S)) : Prop :=
  ∀ buffer i after outcome j, (produce buffer).run i = (.ok (after, outcome), j) → buffer.Handled after

theorem Handles.size_le {produce : Producer K ε (StateM S)} (h : produce.Handles) {limit : Nat} {i j : S}
    {after : Buffer K} {outcome : Except ε Unit}
    (hrun : (produce (.vacant limit)).run i = (.ok (after, outcome), j)) : after.size ≤ limit :=
  ((h _ _ _ _ _ hrun).size_le (Nat.zero_le limit)).2

/-- The producer that hands over the keys of a list. -/
def filling : Producer K ε (StateM (List K)) := fun buffer => do
  let (filled, _, rest) := buffer.fillFrom (← get)
  set rest
  return .ok (filled, .ok ())

theorem run_filling (limit : Nat) (source : List K) :
    (filling (ε := ε) (.vacant limit)).run source =
      (.ok (⟨source.take limit, limit⟩, .ok ()), source.drop limit) := rfl

theorem handles_filling : (filling : Producer K ε (StateM (List K))).Handles := by
  intro buffer source after outcome rest h
  obtain ⟨hafter, -⟩ := Prod.mk.inj (Except.ok.inj (Prod.mk.inj h).1)
  rw [← hafter]
  exact .fillFrom .untouched source

/-- A session in which the producer is asked for so many keys, from one state of its own to another: the keys that it
staged, and how the session ended. -/
inductive Session (produce : Producer K ε (StateM S)) :
    (remaining : Nat) → (before : S) → (keys : List K) → Except Fault (Except ε Unit) → (after : S) → Prop
  | finished {i : S} : Session produce 0 i [] (.ok (.ok ())) i
  /-- What was staged when the producer gave up is lost. -/
  | gaveUp {remaining : Nat} {i j : S} {fault : Fault} (hpos : remaining ≠ 0)
      (hrun : (produce (.vacant (min remaining Buffer.chunk))).run i = (.error fault, j)) :
      Session produce remaining i [] (.error fault) j
  | failed {remaining : Nat} {i j : S} {buffer : Buffer K} {e : ε} (hpos : remaining ≠ 0)
      (hrun : (produce (.vacant (min remaining Buffer.chunk))).run i = (.ok (buffer, .error e), j)) :
      Session produce remaining i buffer.staged (.ok (.error e)) j
  | unfilled {remaining : Nat} {i j : S} {buffer : Buffer K} (hpos : remaining ≠ 0)
      (hrun : (produce (.vacant (min remaining Buffer.chunk))).run i = (.ok (buffer, .ok ()), j))
      (hshort : buffer.size < min remaining Buffer.chunk) :
      Session produce remaining i buffer.staged (.ok (.ok ())) j
  | filled {remaining : Nat} {i j k : S} {buffer : Buffer K} {keys : List K} {outcome : Except Fault (Except ε Unit)}
      (hpos : remaining ≠ 0)
      (hrun : (produce (.vacant (min remaining Buffer.chunk))).run i = (.ok (buffer, .ok ()), j))
      (hfull : buffer.size = min remaining Buffer.chunk)
      (hrest : Session produce (remaining - buffer.size) j keys outcome k) :
      Session produce remaining i (buffer.staged ++ keys) outcome k

/-- A list hands over as many keys as are asked for, if it has so many. -/
theorem Session.of_filling {remaining : Nat} {source keys rest : List K} {outcome : Except Fault (Except ε Unit)}
    (h : Session filling remaining source keys outcome rest) :
    keys = source.take remaining ∧ outcome = .ok (.ok ()) ∧ rest = source.drop remaining := by
  induction h with
  | finished => exact ⟨rfl, rfl, rfl⟩
  | gaveUp _ hrun => cases (run_filling _ _).symm.trans hrun
  | failed _ hrun => cases (run_filling _ _).symm.trans hrun
  | unfilled _ hrun hshort =>
    cases (run_filling _ _).symm.trans hrun
    rw [Buffer.size, List.length_take] at hshort
    rw [List.take_of_length_le (by omega), List.take_of_length_le (by omega), List.drop_of_length_le (by omega),
      List.drop_of_length_le (by omega)]
    exact ⟨rfl, rfl, rfl⟩
  | filled _ hrun hfull _ ih =>
    cases (run_filling _ _).symm.trans hrun
    obtain ⟨rfl, rfl, rfl⟩ := ih
    rw [hfull, ← List.take_add, List.drop_drop, Nat.add_sub_cancel' (Nat.min_le_left ..)]
    exact ⟨rfl, rfl, rfl⟩

end Producer

theorem Staging.handles (stage : Staging K ε) : stage.producer.Handles := by
  intro buffer i after outcome j h
  rw [stage.run_producer] at h
  replace h := (Prod.mk.inj h).1
  cases hstage : stage i buffer.limit with
  | error text =>
    rw [hstage] at h
    cases h
  | ok answer =>
    rw [hstage] at h
    cases hpushed : answer.1.foldlM Buffer.push buffer with
    | error fault =>
      simp only [unlessAborted, Except.mapError, hpushed, bind, Except.bind, reduceCtorEq] at h
    | ok pushed =>
      simp only [unlessAborted, Except.mapError, hpushed, bind, Except.bind, pure, Except.pure, Except.ok.injEq,
        Prod.mk.injEq] at h
      rw [← h.1]
      exact Buffer.handled_of_foldlM _ .untouched hpushed

/-! ### Inserting -/

namespace FixedSet.Upkeep

open RobinHood.Ledger

variable [BEq K] {hasher : Hasher K} {U : Upkeep hasher} {c : Nat} {s : FixedSet K} {m : List K}

/-- An insertion takes the room of at most one key. -/
theorem insert_of_room (h : U.Keeps c s m) (hroom : m.length < c) (key : K) :
    ∃ answer t m', (insert key).runOn s = (.ok answer, t) ∧ U.Keeps c t m' ∧ m'.length ≤ m.length + 1 := by
  obtain ⟨b, x, hash, hsearch, -, -⟩ | ⟨hsearch, hapart⟩ := U.search h key
  · refine ⟨some key, s, m, ?_, h, Nat.le_succ _⟩
    simp only [insert, runOn_get_bind, runOn_ok_bind, hsearch]
    rfl
  · have henters := U.insertNew h hapart
    rw [Enters, if_pos hroom] at henters
    obtain ⟨t, bucket, hrun, hkeeps, -⟩ := henters
    refine ⟨none, t, key :: m, ?_, hkeeps, le_refl _⟩
    simp only [insert, runOn_get_bind, runOn_ok_bind, hsearch]
    exact runOn_bind_ok hrun

theorem extend_of_room (keys : List K) : ∀ {s : FixedSet K} {m : List K}, U.Keeps c s m →
    m.length + keys.length ≤ c →
    ∃ t m', (extend keys).runOn s = (.ok (), t) ∧ U.Keeps c t m' ∧ m'.length ≤ m.length + keys.length := by
  induction keys with
  | nil => exact fun h _ => ⟨_, _, rfl, h, le_refl _⟩
  | cons key keys ih =>
    intro s m h hroom
    rw [List.length_cons] at hroom
    obtain ⟨answer, t, m', hrun, hkeeps, hle⟩ := insert_of_room h (by omega) key
    obtain ⟨t', m'', hrest, hkeeps', hle'⟩ := ih hkeeps (by omega)
    refine ⟨t', m'', ?_, hkeeps', by rw [List.length_cons]; omega⟩
    rw [extend, forM_cons, runOn_bind_ok hrun]
    exact hrest

theorem extend_append {keys more : List K} {t : FixedSet K} (h : (extend keys).runOn s = (.ok (), t)) :
    (extend (keys ++ more)).runOn s = (extend more).runOn t := by
  have happend : extend (keys ++ more) = (extend keys >>= fun _ => extend more) := List.forM_append
  rw [happend, runOn_bind_ok h]

/-- In a session for no more keys than there is room for, all that it stages is inserted. -/
theorem insertChunks_session {produce : Producer K ε (StateM S)} (hproduce : produce.Handles) (remaining : Nat) :
    ∀ {s : FixedSet K} {m : List K} (i : S), U.Keeps c s m → m.length + remaining ≤ c →
      ∃ keys outcome t j, produce.Session remaining i keys outcome j ∧ keys.length ≤ remaining ∧
        (extend keys).runOn s = (.ok (), t) ∧ ((insertChunks produce remaining).runOn s).run i = ((outcome, t), j) := by
  induction remaining using Nat.strongRecOn with
  | ind remaining ih =>
    intro s m i h hroom
    by_cases hzero : remaining = 0
    · subst hzero
      exact ⟨[], _, s, i, .finished, le_refl 0, rfl, by rw [insertChunks, if_pos rfl]; rfl⟩
    · rw [run_insertChunks hzero]
      cases hrun : (produce (.vacant (min remaining Buffer.chunk))).run i with
      | mk reply j =>
        cases reply with
        | error fault => exact ⟨[], _, s, j, .gaveUp hzero hrun, Nat.zero_le _, rfl, rfl⟩
        | ok answer =>
          obtain ⟨buffer, outcome⟩ := answer
          have hsize := hproduce.size_le hrun
          have hle : buffer.staged.length ≤ remaining := hsize.trans (Nat.min_le_left ..)
          obtain ⟨t, m', hextend, hkeeps, hlength⟩ := extend_of_room buffer.staged h (by omega)
          dsimp only
          rw [hextend]
          cases outcome with
          | error e => exact ⟨_, _, t, j, .failed hzero hrun, hle, hextend, rfl⟩
          | ok _ =>
            by_cases hshort : buffer.size < min remaining Buffer.chunk
            · exact ⟨_, _, t, j, .unfilled hzero hrun hshort, hle, hextend, if_pos hshort⟩
            · have hfull : buffer.size = min remaining Buffer.chunk := Nat.le_antisymm hsize (Nat.not_lt.mp hshort)
              have hchunk : 0 < min remaining Buffer.chunk := Nat.lt_min.mpr ⟨Nat.pos_of_ne_zero hzero, by decide⟩
              have hstaged : buffer.staged.length = buffer.size := rfl
              obtain ⟨keys, outcome, t', k, hsession, hkeys, hrest, hinsert⟩ :=
                ih (remaining - buffer.size) (by omega) j hkeeps (by omega)
              refine ⟨buffer.staged ++ keys, outcome, t', k, .filled hzero hrun hfull hsession, ?_, ?_, ?_⟩
              · rw [List.length_append]
                omega
              · rw [extend_append hextend, hrest]
              · exact (if_neg hshort).trans hinsert

theorem insertBatch_session {produce : Producer K ε (StateM S)} (hproduce : produce.Handles) (h : U.Keeps c s m)
    {maximum : Nat} (hroom : maximum ≤ s.freeCapacity) (i : S) :
    ∃ keys outcome t j, produce.Session maximum i keys outcome j ∧ keys.length ≤ maximum ∧
      (extend keys).runOn s = (.ok (), t) ∧ ((insertBatch maximum produce).runOn s).run i = ((outcome, t), j) := by
  have hcount : s.table.count = m.length := U.count (U.stores h)
  have hcap : s.table.capacity = c := U.capacity (U.stores h)
  have hle := U.length_le (U.stores h)
  have hfree : s.freeCapacity = c - m.length := by rw [freeCapacity, Table.freeCapacity, hcap, hcount]
  rw [run_insertBatch]
  by_cases hzero : maximum = 0
  · subst hzero
    exact ⟨[], _, s, i, .finished, le_refl 0, rfl, rfl⟩
  · rw [if_neg hzero, if_neg (Nat.not_lt.mpr hroom)]
    exact insertChunks_session hproduce maximum i h (by omega)

end FixedSet.Upkeep

end RobinHood
