import RobinHood.Proofs.Memoization

/-!
# Overflowing leaves everything as it is

A container of fixed capacity refuses a key that it does not have when it is full, and nothing else. Each operation
looks for room at a point of its own, but all of them before they change anything. A loop over items ends where one is
refused, with those before it stored.
-/

namespace RobinHood

open RobinHood.Action

variable {ι σ K V α β : Type}

/-- The step stops with the refusal if and only if room is lacking. Only the caller's function can stop it otherwise,
by giving up. Whatever stops it, nothing has changed. -/
structure Overflows (refusal : Fault) (lacking : Prop) (gaveUp : String → Prop) (s : σ) (step : Except Fault α × σ) :
    Prop where
  refused_iff : step.1 = .error refusal ↔ lacking
  stops : ∀ fault, step.1 = .error fault → fault = refusal ∨ ∃ text, fault = .aborted text ∧ gaveUp text
  intact : ∀ fault, step.1 = .error fault → step.2 = s

def neverGivesUp (_ : String) : Prop :=
  False

namespace Overflows

variable {refusal : Fault} {lacking lacking' : Prop} {gaveUp : String → Prop} {s : σ}

theorem refused (h : lacking) : Overflows refusal lacking gaveUp s ((.error refusal, s) : Except Fault α × σ) where
  refused_iff := iff_of_true rfl h
  stops := by
    rintro _ ⟨⟩
    exact .inl rfl
  intact := by
    rintro _ ⟨⟩
    rfl

theorem done (h : ¬ lacking) (x : α) (t : σ) : Overflows refusal lacking gaveUp s (.ok x, t) where
  refused_iff := iff_of_false nofun h
  stops := nofun
  intact := nofun

theorem aborted {text : String} (h : ¬ lacking) (hother : Fault.aborted text ≠ refusal) (hgave : gaveUp text) :
    Overflows refusal lacking gaveUp s ((.error (.aborted text), s) : Except Fault α × σ) where
  refused_iff := iff_of_false (fun hsame => hother (Except.error.inj hsame)) h
  stops := by
    rintro _ ⟨⟩
    exact .inr ⟨text, rfl, hgave⟩
  intact := by
    rintro _ ⟨⟩
    rfl

theorem reply {step : Except Fault α × σ} (h : Overflows refusal lacking gaveUp s step) (f : α → β) :
    Overflows refusal lacking gaveUp s (reply f step) := by
  obtain ⟨outcome, t⟩ := step
  cases outcome with
  | ok x => exact .done (fun hlacking => nomatch h.refused_iff.mpr hlacking) (f x) t
  | error fault =>
    exact ⟨by simpa [RobinHood.reply] using h.refused_iff, by simpa [RobinHood.reply] using h.stops,
      by simpa [RobinHood.reply] using h.intact⟩

theorem congr {step : Except Fault α × σ} (h : Overflows refusal lacking gaveUp s step) (hiff : lacking ↔ lacking') :
    Overflows refusal lacking' gaveUp s step :=
  ⟨h.refused_iff.trans hiff, h.stops, h.intact⟩

theorem eq {step : Except Fault α × σ} (h : Overflows refusal lacking gaveUp s step) (hlacking : lacking) :
    step = (.error refusal, s) :=
  Prod.ext (h.refused_iff.mpr hlacking) (h.intact refusal (h.refused_iff.mpr hlacking))

/-- Where no caller is asked, either the step is done or room is lacking. -/
theorem cases {step : Except Fault α × σ} (h : Overflows refusal lacking neverGivesUp s step) :
    (∃ x t, step = (.ok x, t)) ∨ (lacking ∧ step = (.error refusal, s)) := by
  obtain ⟨outcome, t⟩ := step
  cases outcome with
  | ok x => exact .inl ⟨x, t, rfl⟩
  | error fault =>
    obtain rfl : t = s := h.intact fault rfl
    obtain rfl | ⟨text, -, hnever⟩ := h.stops fault rfl
    · exact .inr ⟨h.refused_iff.mp rfl, rfl⟩
    · exact hnever.elim

end Overflows

/-! ### Loops -/

/-- The items are taken one after the other, and no one stops. -/
inductive Takes (action : ι → Action σ β) : σ → List ι → σ → Prop
  | nil (s : σ) : Takes action s [] s
  | cons {s t u : σ} {i : ι} {rest : List ι} {x : β} (h : (action i).runOn s = (.ok x, t))
      (hrest : Takes action t rest u) : Takes action s (i :: rest) u

/-- The outcome of a loop that takes all items, or those before the first that overflows. -/
inductive Sweeps (action : ι → Action σ β) (refusal : Fault) (lacking : ι → σ → Prop) (s : σ) (items : List ι) :
    Except Fault Unit × σ → Prop
  | all {t : σ} (h : Takes action s items t) : Sweeps action refusal lacking s items (.ok (), t)
  | upTo {before after : List ι} {i : ι} {t : σ} (hitems : items = before ++ i :: after) (h : Takes action s before t)
      (hlacking : lacking i t) (hrefused : (action i).runOn t = (.error refusal, t)) :
      Sweeps action refusal lacking s items (.error refusal, t)

theorem Sweeps.cons {action : ι → Action σ β} {refusal : Fault} {lacking : ι → σ → Prop} {s t : σ} {i : ι}
    {rest : List ι} {x : β} {outcome : Except Fault Unit × σ} (hrun : (action i).runOn s = (.ok x, t))
    (h : Sweeps action refusal lacking t rest outcome) : Sweeps action refusal lacking s (i :: rest) outcome := by
  cases h with
  | all h => exact .all (.cons hrun h)
  | upTo hitems h hlacking hrefused => exact .upTo (by rw [hitems, List.cons_append]) (.cons hrun h) hlacking hrefused

/-- A loop takes the items before the first that overflows if every item does or overflows. -/
theorem sweeps_of_overflows {P : σ → Prop} {action : ι → Action σ β} {refusal : Fault} {lacking : ι → σ → Prop}
    (hoverflows : ∀ i s, P s → Overflows refusal (lacking i s) neverGivesUp s ((action i).runOn s))
    (hafter : ∀ i s, P s → P ((action i).runOn s).2) (items : List ι) : ∀ {s : σ}, P s →
      Sweeps action refusal lacking s items (ActionT.runOn (items.forM fun i => do let _ ← action i) s) := by
  induction items with
  | nil => exact fun {s} _ => .all (.nil s)
  | cons i rest ih =>
    intro s hs
    have hnext := hafter i s hs
    rw [Action.forM_cons]
    obtain ⟨x, t, hrun⟩ | ⟨hlacking, hrefused⟩ := (hoverflows i s hs).cases
    · rw [runOn_bind_ok hrun]
      rw [hrun] at hnext
      exact (ih hnext).cons hrun
    · rw [runOn_bind_error hrefused]
      exact .upTo rfl (.nil s) hlacking hrefused

variable [BEq K] {hasher : Hasher K} {c : Nat} {key : K}

/-! ### Fixed sets -/

namespace FixedSet

variable {s : FixedSet K} {m : List K} {hash : UInt64}

/-- What is `held` for a key is what a lookup finds, and is in a bucket. If equal keys have equal hashes, no bucket
has anything else that equals the key. -/
structure HoldsFor (hasher : Hasher K) (s : FixedSet K) (key : K) (held : Option K) : Prop where
  get? : s.get? key = .ok held
  stored : ∀ x, held = some x → ∃ b, s.slots.occupant b = some x ∧ (x == key) = true
  found : ∀ [EquivBEq K], hasher.Lawful → ∀ b x, s.slots.occupant b = some x → (x == key) = true → held = some x

/-- The set does not have the key, and has no room for it. -/
def Lacks (s : FixedSet K) (key : K) : Prop :=
  s.get? key = .ok none ∧ s.isFull = true

/-- What a set does about a key for which there may be no room, where `held` is held. -/
structure Guards (hasher : Hasher K) (s : FixedSet K) (key : K) (held : Option K) : Prop where
  holds : s.HoldsFor hasher key held
  insert : Overflows .setFull (s.Lacks key) neverGivesUp s ((insert key).runOn s)
  update : Overflows .setFull (s.Lacks key) neverGivesUp s ((update key).runOn s)
  tryInsert_lacking : s.Lacks key → (tryInsert key).runOn s = (.ok (.error ⟨key⟩), s)
  tryInsert_held : held ≠ none → (tryInsert key).runOn s = (.ok (.ok (some key)), s)
  tryInsert : ¬ s.Lacks key → (tryInsert key).runOn s = reply .ok ((FixedSet.insert key).runOn s)

theorem HoldsFor.lacks_iff {held : Option K} (h : s.HoldsFor hasher key held) :
    s.Lacks key ↔ held = none ∧ s.isFull = true := by
  rw [Lacks, h.get?, Except.ok.injEq]

omit [BEq K] in
theorem Steady.insertNew_overflows (h : Steady c s m) (key : K) (hash : UInt64) :
    Overflows .setFull (s.isFull = true) neverGivesUp s ((FixedSet.insertNew key hash).runOn s) := by
  by_cases hfull : s.isFull = true
  · rw [runOn_insertNew_full (beq_iff_eq.mp hfull)]
    exact .refused hfull
  · have hroom : s.table.count ≠ s.table.capacity := fun hcount => hfull (beq_iff_eq.mpr hcount)
    obtain ⟨seated, hok, -⟩ := h.inStep.seat (Nat.lt_of_le_of_ne h.inStep.count_le hroom) s.hashOf key hash
    rw [runOn_insertNew hroom hok]
    exact .done hfull _ _

section Reachable

variable (hs : AnySet.Reachable hasher (.fixed s))

include hs

theorem held_of_get? {held : Option K} (hget : s.get? key = .ok held) [EquivBEq K] (hlawful : hasher.Lawful) (b : Nat)
    (x : K) (hx : s.slots.occupant b = some x) (hkey : (x == key) = true) : held = some x := by
  obtain ⟨c, m, hkeeps⟩ := hs.keeps hlawful
  have hmem := hkeeps.seating.elements.mem_iff.mp (Slots.mem_elements.mpr ⟨b, hx⟩)
  exact (Except.ok.inj (hget.symm.trans (hkeeps.get? hlawful key))).trans
    (hkeeps.seating.distinct.lookup_of_mem hmem hkey)

theorem holdsFor_of_hit {b : Nat} {x : K} (hsearch : s.search key = .ok ⟨some b, hash⟩)
    (hx : s.slots.occupant b = some x) (hkey : (x == key) = true) : s.HoldsFor hasher key (some x) := by
  have hget : s.get? key = .ok (some x) := by
    simp only [FixedSet.get?, hsearch, bind, Except.bind, Option.mapM_some, Slots.get_of_occupant hx]
    rfl
  refine ⟨hget, ?_, held_of_get? hs hget⟩
  rintro _ ⟨⟩
  exact ⟨b, hx, hkey⟩

theorem holdsFor_of_miss (hsearch : s.search key = .ok ⟨none, hash⟩) : s.HoldsFor hasher key none := by
  have hget : s.get? key = .ok none := by
    simp only [FixedSet.get?, hsearch, bind, Except.bind, Option.mapM_none]
    rfl
  refine ⟨hget, ?_, held_of_get? hs hget⟩
  rintro _ ⟨⟩

theorem guards_of_hit {b : Nat} {x : K} (hsearch : s.search key = .ok ⟨some b, hash⟩)
    (hx : s.slots.occupant b = some x) (hkey : (x == key) = true) : s.Guards hasher key (some x) := by
  have hholds := holdsFor_of_hit hs hsearch hx hkey
  have hheld : ¬ s.Lacks key := fun hlacks => nomatch (hholds.lacks_iff.mp hlacks).1
  have hinsert : (FixedSet.insert key).runOn s = (.ok (some key), s) := runOn_insert_of_hit hsearch
  have htry : (FixedSet.tryInsert key).runOn s = (.ok (.ok (some key)), s) := by
    simp only [FixedSet.tryInsert, runOn_get_bind, runOn_ok_bind, hsearch]
    rfl
  refine ⟨hholds, ?_, ?_, fun hlacks => absurd hlacks hheld, fun _ => htry, fun _ => ?_⟩
  · rw [hinsert]
    exact .done hheld _ _
  · simp only [FixedSet.update, runOn_get_bind, runOn_ok_bind, hsearch, runOn_bind_ok (runOn_replaceAt hx key)]
    exact .done hheld _ _
  · rw [htry, hinsert]
    rfl

theorem guards_of_miss (h : Steady c s m) (hsearch : s.search key = .ok ⟨none, hash⟩) :
    s.Guards hasher key none := by
  have hholds := holdsFor_of_miss hs hsearch
  have hlacks : s.Lacks key ↔ s.isFull = true := hholds.lacks_iff.trans (and_iff_right rfl)
  have hinsert : (FixedSet.insert key).runOn s = reply (fun _ => none) ((insertNew key hash).runOn s) :=
    runOn_insert_of_miss hsearch
  have hupdate : (FixedSet.update key).runOn s = reply (fun _ => none) ((insertNew key hash).runOn s) := by
    simp only [FixedSet.update, runOn_get_bind, runOn_ok_bind, hsearch]
    exact runOn_map _ _ _
  have hoverflows := ((h.insertNew_overflows key hash).reply fun _ => (none : Option K)).congr hlacks.symm
  refine ⟨hholds, ?_, ?_, fun hlacking => ?_, fun hheld => absurd rfl hheld, fun hroom => ?_⟩
  · rwa [hinsert]
  · rwa [hupdate]
  · simp only [FixedSet.tryInsert, runOn_get_bind, runOn_ok_bind, hsearch, Option.isSome_none, Bool.false_eq_true,
      if_false, hlacking.2, if_true]
    rfl
  · have hfull : s.isFull = false := Bool.of_not_eq_true fun hfull => hroom (hlacks.mpr hfull)
    rw [hinsert]
    simp only [FixedSet.tryInsert, runOn_get_bind, runOn_ok_bind, hsearch, Option.isSome_none, Bool.false_eq_true,
      if_false, hfull]
    rw [runOn_bind]
    obtain ⟨outcome, t⟩ := (insertNew key hash).runOn s
    cases outcome <;> rfl

theorem exists_guards (key : K) : ∃ held, s.Guards hasher key held := by
  obtain ⟨c, m, h⟩ := hs.steady
  obtain ⟨b, x, hash, hsearch, hx, hkey⟩ | ⟨hsearch, -⟩ := (steady hasher).search h key
  · exact ⟨some x, guards_of_hit hs hsearch hx hkey⟩
  · exact ⟨none, guards_of_miss hs h hsearch⟩

theorem extend_sweeps (keys : List K) :
    Sweeps insert .setFull (fun key t => t.Lacks key) s keys ((extend keys).runOn s) := by
  refine sweeps_of_overflows (P := fun s => AnySet.Reachable hasher (.fixed s)) (fun key s hs => ?_)
    (fun key s hs => ?_) keys hs
  · obtain ⟨held, hguards⟩ := exists_guards hs key
    exact hguards.insert
  · have hafter := hs.callFixed (.member (.insert key) : Call K Empty)
    rwa [carryOut, runOn_map] at hafter

end Reachable

end FixedSet

/-! ### Fixed dictionaries -/

namespace FixedDict

variable {d : FixedDict K V} {m : List (K × V)} {hash : UInt64}

def Lacks (d : FixedDict K V) (key : K) : Prop :=
  d.get? key = .ok none ∧ d.isFull = true

/-- What a dictionary does about a key for which there may be no room, where `held` is held. A function of the caller
may change a state of its own; it is not called where room is lacking. -/
structure Guards (hasher : Hasher K) (d : FixedDict K V) (key : K) (held : Option V) : Prop where
  holds : d.HoldsUnder hasher key held
  insert : ∀ value, Overflows .dictionaryFull (d.Lacks key) neverGivesUp d ((insert key value).runOn d)
  update : ∀ value, Overflows .dictionaryFull (d.Lacks key) neverGivesUp d ((update key value).runOn d)
  memoize : ∀ {S : Type} (compute : K → StateM S (Except String V)) (i : S),
    Overflows .dictionaryFull (d.Lacks key) (fun text => ((compute key).run i).1 = .error text) d
      (((memoize key fun key => unlessAborted <$> compute key).runOn d).run i).1
  tryMemoize : ∀ {S ε : Type} (compute : K → StateM S (Except String (Except ε V))) (i : S),
    Overflows .dictionaryFull (d.Lacks key) (fun text => ((compute key).run i).1 = .error text) d
      (((tryMemoize key fun key => unlessAborted <$> compute key).runOn d).run i).1
  uncalled : d.Lacks key → ∀ {n : Type → Type} [Monad n] [LawfulMonad n] {ε : Type},
    (∀ compute : K → n (Except Fault V), (FixedDict.memoize key compute).runOn d = pure (.error .dictionaryFull, d)) ∧
    ∀ compute : K → n (Except Fault (Except ε V)),
      (FixedDict.tryMemoize key compute).runOn d = pure (.error .dictionaryFull, d)
  tryInsert_lacking : d.Lacks key → ∀ value, (tryInsert key value).runOn d = (.ok (.error ⟨(key, value)⟩), d)
  tryInsert_held : held ≠ none → ∀ value, (tryInsert key value).runOn d = (.ok (.ok (some value)), d)
  tryInsert : ¬ d.Lacks key → ∀ value,
    (tryInsert key value).runOn d = reply .ok ((FixedDict.insert key value).runOn d)

theorem HoldsUnder.lacks_iff {held : Option V} (h : d.HoldsUnder hasher key held) :
    d.Lacks key ↔ held = none ∧ d.isFull = true := by
  rw [Lacks, h.get?, Except.ok.injEq]

omit [BEq K] in
theorem Steady.insertNew_overflows (h : Steady hasher c d m) (key : K) (value : V) (hash : UInt64) :
    Overflows .dictionaryFull (d.isFull = true) neverGivesUp d ((FixedDict.insertNew key value hash).runOn d) := by
  have henters : Ledger.Enters (Steady hasher c) Holds ⟨c, .dictionaryFull⟩ (FixedDict.insertNew key value hash) d m
      (key, value) := Steady.insertNew (x := (key, value)) h
  have hfull := h.isFull_eq_false_iff
  rw [Ledger.Enters] at henters
  split at henters
  · next hroom =>
    obtain ⟨t, bucket, hrun, -⟩ := henters
    rw [hrun]
    exact .done (by rw [hfull.mpr hroom]; exact Bool.false_ne_true) _ _
  · next hroom =>
    rw [henters]
    exact .refused (Bool.of_not_eq_false fun hfree => hroom (hfull.mp hfree))

omit [BEq K] in
/-- The caller's function is asked where nothing is held and there is room, and its answer settles the rest. -/
theorem overflows_unlessHeld {S γ : Type} {held : Option β} {settled : Except Fault γ → Except Fault β × FixedDict K V}
    {computed : StateM S (Except String γ)} (i : S)
    (hsettled : held = none → d.isFull = false → ∀ x, ∃ y t, settled (.ok x) = (.ok y, t))
    (hstopped : ∀ fault, settled (.error fault) = (.error fault, d)) :
    Overflows .dictionaryFull (held = none ∧ d.isFull = true) (fun text => (computed.run i).1 = .error text) d
      ((unlessHeld d d.refusal (settled <$> unlessAborted <$> computed) held).run i).1 := by
  cases held with
  | some y => exact .done (fun hlacking => Option.some_ne_none y hlacking.1) y d
  | none =>
    rw [refusal]
    cases hfull : d.isFull with
    | true => exact .refused ⟨rfl, rfl⟩
    | false =>
      change Overflows _ _ _ d (settled (unlessAborted (computed.run i).1))
      cases hcomputed : (computed.run i).1 with
      | error text =>
        rw [show unlessAborted (.error text : Except String γ) = .error (.aborted text) from rfl, hstopped]
        exact .aborted (fun hlacking => Bool.false_ne_true hlacking.2) (by simp) rfl
      | ok x =>
        obtain ⟨y, t, hsettled⟩ := hsettled rfl hfull x
        rw [show unlessAborted (.ok x : Except String γ) = .ok x from rfl, hsettled]
        exact .done (fun hlacking => Bool.false_ne_true hlacking.2) y t

section Lazy

variable {held : Option V} (hlazy : (memo key).Lazy hasher key d.refusal none d held)

include hlazy

theorem insert_done (hnone : held = none) (hroom : d.isFull = false) (value : V) :
    ∃ t, (FixedDict.insert key value).runOn d = (.ok none, t) := by
  obtain ⟨t, hrun, -⟩ := hlazy.insert hnone (if_neg (by rw [hroom]; exact Bool.false_ne_true)) value
  exact ⟨t, hrun⟩

theorem tryMemoize_overflows {S ε : Type} (compute : K → StateM S (Except String (Except ε V))) (i : S) :
    Overflows .dictionaryFull (d.Lacks key) (fun text => ((compute key).run i).1 = .error text) d
      (((FixedDict.tryMemoize key fun key => unlessAborted <$> compute key).runOn d).run i).1 := by
  have hrun := hlazy.tryMemoize fun key => unlessAborted <$> compute key
  rw [show (FixedDict.tryMemoize key fun key => unlessAborted <$> compute key).runOn d = _ from hrun]
  refine (overflows_unlessHeld i (fun hnone hroom computed => ?_) fun _ => rfl).congr
    ((and_congr_left fun _ => Option.map_eq_none_iff).trans hlazy.holds.lacks_iff.symm)
  cases computed with
  | error e => exact ⟨_, _, rfl⟩
  | ok value =>
    obtain ⟨t, hinsert⟩ := insert_done hlazy (Option.map_eq_none_iff.mp hnone) hroom value
    exact ⟨.ok value, t, congrArg (reply fun _ => (Except.ok value : Except ε V)) hinsert⟩

theorem memoize_overflows {S : Type} (compute : K → StateM S (Except String V)) (i : S) :
    Overflows .dictionaryFull (d.Lacks key) (fun text => ((compute key).run i).1 = .error text) d
      (((FixedDict.memoize key fun key => unlessAborted <$> compute key).runOn d).run i).1 := by
  have hrun := hlazy.memoize fun key => unlessAborted <$> compute key
  rw [show (FixedDict.memoize key fun key => unlessAborted <$> compute key).runOn d = _ from hrun]
  refine (overflows_unlessHeld i (fun hnone hroom value => ?_) fun _ => rfl).congr hlazy.holds.lacks_iff.symm
  obtain ⟨t, hinsert⟩ := insert_done hlazy hnone hroom value
  exact ⟨value, t, congrArg (reply fun _ => value) hinsert⟩

theorem uncalled (hlacks : d.Lacks key) {n : Type → Type} [Monad n] [LawfulMonad n] {ε : Type} :
    (∀ compute : K → n (Except Fault V), (FixedDict.memoize key compute).runOn d = pure (.error .dictionaryFull, d)) ∧
    ∀ compute : K → n (Except Fault (Except ε V)),
      (FixedDict.tryMemoize key compute).runOn d = pure (.error .dictionaryFull, d) := by
  obtain ⟨hnone, hfull⟩ := hlazy.holds.lacks_iff.mp hlacks
  have hrefusal : d.refusal = some .dictionaryFull := if_pos hfull
  constructor
  · intro compute
    have hrun := hlazy.memoize compute
    rwa [hnone, hrefusal] at hrun
  · intro compute
    have hrun := hlazy.tryMemoize compute
    rwa [hnone, hrefusal] at hrun

end Lazy

theorem Steady.guards_of_hit {b : Nat} {x : K × V} (h : Steady hasher c d m)
    (hlazy : (memo key).Lazy hasher key d.refusal none d (some x.2)) (hsearch : d.keys.search key = .ok ⟨some b, hash⟩)
    (hx : Holds d b x) : d.Guards hasher key (some x.2) := by
  obtain ⟨t, hfinds⟩ := h.finds hsearch hx
  have hinsert : ∀ value, (FixedDict.insert key value).runOn d = (.ok (some value), d) := hfinds.runOn_insert
  have hupdate : ∀ value, (FixedDict.update key value).runOn d = (.ok (some x.2), d.revised b t (some value)) :=
    hfinds.runOn_update
  have htry : ∀ value, (FixedDict.tryInsert key value).runOn d = (.ok (.ok (some value)), d) := fun value => by
    simp only [FixedDict.tryInsert, runOn_get_bind, runOn_ok_bind, hsearch]
    rfl
  have hheld : ¬ d.Lacks key := fun hlacks => Option.some_ne_none x.2 (hlazy.holds.lacks_iff.mp hlacks).1
  exact {
    holds := hlazy.holds
    insert := fun value => by
      rw [hinsert]
      exact .done hheld _ _
    update := fun value => by
      rw [hupdate]
      exact .done hheld _ _
    memoize := memoize_overflows hlazy
    tryMemoize := tryMemoize_overflows hlazy
    uncalled := uncalled hlazy
    tryInsert_lacking := fun hlacks => absurd hlacks hheld
    tryInsert_held := fun _ => htry
    tryInsert := fun _ value => by
      rw [htry, hinsert]
      rfl }

theorem Steady.guards_of_miss (h : Steady hasher c d m) (hlazy : (memo key).Lazy hasher key d.refusal none d none)
    (hsearch : d.keys.search key = .ok ⟨none, hash⟩) : d.Guards hasher key none := by
  have hinsert : ∀ value, (FixedDict.insert key value).runOn d =
      reply (fun _ => none) ((FixedDict.insertNew key value hash).runOn d) := runOn_insert_of_miss hsearch
  have hupdate : ∀ value, (FixedDict.update key value).runOn d =
      reply (fun _ => none) ((FixedDict.insertNew key value hash).runOn d) := fun value => by
    have hmiss : (steps key).search d = .ok ⟨none, hash⟩ := hsearch
    have hrun := Steps.runOn_update_of_miss hmiss value
    rw [keyed_steps] at hrun
    exact hrun
  have hlacks : d.Lacks key ↔ d.isFull = true := hlazy.holds.lacks_iff.trans (and_iff_right rfl)
  have hoverflows := fun value =>
    ((h.insertNew_overflows key value hash).reply fun _ => (none : Option V)).congr hlacks.symm
  exact {
    holds := hlazy.holds
    insert := fun value => by
      rw [hinsert]
      exact hoverflows value
    update := fun value => by
      rw [hupdate]
      exact hoverflows value
    memoize := memoize_overflows hlazy
    tryMemoize := tryMemoize_overflows hlazy
    uncalled := uncalled hlazy
    tryInsert_lacking := fun hlacking value => by
      simp only [FixedDict.tryInsert, runOn_get_bind, runOn_ok_bind, hsearch, Option.isSome_none, Bool.false_eq_true,
        if_false, hlacking.2, if_true]
      rfl
    tryInsert_held := fun hheld => absurd rfl hheld
    tryInsert := fun hroom value => by
      have hfull : d.isFull = false := Bool.of_not_eq_true fun hfull => hroom (hlacks.mpr hfull)
      rw [hinsert]
      simp only [FixedDict.tryInsert, runOn_get_bind, runOn_ok_bind, hsearch, Option.isSome_none, Bool.false_eq_true,
        if_false, hfull]
      rw [runOn_bind]
      obtain ⟨outcome, t⟩ := (FixedDict.insertNew key value hash).runOn d
      cases outcome <;> rfl }

section Reachable

variable (hd : AnyDict.Reachable hasher (.fixed d))

include hd

theorem exists_guards (key : K) : ∃ held, d.Guards hasher key held := by
  obtain ⟨c, m, h⟩ := hd.keptBy (steady hasher)
  obtain ⟨held, hlazy⟩ := memo_lazy hd key
  obtain ⟨b, x, hash, hsearch, hx, -⟩ | ⟨hsearch, -⟩ := (steady hasher).search h key
  · cases hlazy.holds.get?.symm.trans (get?_of_search_some hsearch hx)
    exact ⟨_, Steady.guards_of_hit h hlazy hsearch hx⟩
  · cases hlazy.holds.get?.symm.trans (get?_of_search_none hsearch)
    exact ⟨_, Steady.guards_of_miss h hlazy hsearch⟩

theorem extend_sweeps (entries : List (K × V)) :
    Sweeps (fun entry => update entry.1 entry.2) .dictionaryFull (fun entry t => t.Lacks entry.1) d entries
      ((extend entries).runOn d) := by
  refine sweeps_of_overflows (P := fun d => AnyDict.Reachable hasher (.fixed d)) (fun entry d hd => ?_)
    (fun entry d hd => ?_) entries hd
  · obtain ⟨held, hguards⟩ := exists_guards hd entry.1
    exact hguards.update entry.2
  · have hafter := hd.callFixed (.entry (.update entry.1 entry.2) : Call K V Empty Empty)
    rwa [carryOut, runOn_map] at hafter

end Reachable

end FixedDict

/-- Whatever a container of fixed capacity has been through, and whatever the key: the operations that may enter it
stop with the report of the capacity overflow exactly if it is absent and the container is full, and what stops them
leaves everything as it was. A checked insertion hands the offer back instead. A loop stops at the first such item. -/
theorem overflow_leaves_intact (hasher : Hasher K) :
    (∀ s : FixedSet K, AnySet.Reachable hasher (.fixed s) →
      (∀ key, ∃ held, s.Guards hasher key held) ∧
      ∀ keys, Sweeps FixedSet.insert .setFull (fun key t => t.Lacks key) s keys ((FixedSet.extend keys).runOn s)) ∧
    (∀ d : FixedDict K V, AnyDict.Reachable hasher (.fixed d) →
      (∀ key, ∃ held, d.Guards hasher key held) ∧
      ∀ entries, Sweeps (fun entry => FixedDict.update entry.1 entry.2) .dictionaryFull
        (fun entry t => t.Lacks entry.1) d entries ((FixedDict.extend entries).runOn d)) ∧
    Fault.setFull.message = "RigidSet capacity overflow" ∧
    Fault.dictionaryFull.message = "RigidDictionary capacity overflow" :=
  ⟨fun _ hs => ⟨FixedSet.exists_guards hs, FixedSet.extend_sweeps hs⟩,
    fun _ hd => ⟨FixedDict.exists_guards hd, FixedDict.extend_sweeps hd⟩, rfl, rfl⟩

/-- A loop that begins with room for one more stops at the second key after it that is new. The container is full then,
and half of its buckets are free: a set still says that it has 3, and hands 99 back or stops at it. A dictionary has
stored a new value under 3, and under 99 it asks nobody for one: the function that counts its calls was not called. -/
theorem overflow_leaves_intact_among_free_buckets :
    (∃ s t : FixedSet Nat, AnySet.Reachable (fun _ key => key.toUInt64) (.fixed s) ∧ s.size = 15 ∧
      Sweeps FixedSet.insert .setFull (fun key t => t.Lacks key) s [3, 15, 99, 7] (.error .setFull, t) ∧
      t.size = 16 ∧ 32 ≤ t.table.bucketCount ∧
      (FixedSet.tryInsert 3).runOn t = (.ok (.ok (some 3)), t) ∧
      (FixedSet.tryInsert 99).runOn t = (.ok (.error ⟨99⟩), t) ∧
      (FixedSet.update 99).runOn t = (.error .setFull, t)) ∧
    ∃ d e : FixedDict Nat Nat, AnyDict.Reachable (fun _ key => key.toUInt64) (.fixed d) ∧ d.size = 15 ∧
      Sweeps (fun entry => FixedDict.update entry.1 entry.2) .dictionaryFull (fun entry t => t.Lacks entry.1) d
        [(3, 31), (15, 150), (99, 990), (7, 71)] (.error .dictionaryFull, e) ∧
      e.size = 16 ∧ 32 ≤ e.table.bucketCount ∧ e.get? 3 = .ok (some 31) ∧ e.get? 7 = .ok (some 70) ∧
      (FixedDict.tryInsert 3 32).runOn e = (.ok (.ok (some 32)), e) ∧
      (FixedDict.tryInsert 99 990).runOn e = (.ok (.error ⟨(99, 990)⟩), e) ∧
      (FixedDict.update 99 990).runOn e = (.error .dictionaryFull, e) ∧
      ((FixedDict.memoize (m := StateM Nat) 99 fun key => modifyGet fun calls => (.ok (10 * key), calls + 1)).runOn
        e).run 0 = ((.error .dictionaryFull, e), 0) := by
  constructor
  · have hnew : AnySet.Reachable (fun _ (key : Nat) => key.toUInt64) (.fixed ⟨_, _⟩) :=
      .fixed (rfl : FixedSet.vacant 16 _ 0 = .ok _)
    have hfilled := hnew.callFixed (.extend (List.range 15) : FixedSet.Call Nat Empty)
    obtain ⟨s, t, hs, hsize, hrun, hcount, hbuckets, hhas, hmisses, hfull⟩ : ∃ s t : FixedSet Nat,
        AnySet.Reachable (fun _ key => key.toUInt64) (.fixed s) ∧ s.size = 15 ∧
        (FixedSet.extend [3, 15, 99, 7]).runOn s = (.error .setFull, t) ∧
        t.size = 16 ∧ 32 ≤ t.table.bucketCount ∧ t.get? 3 = .ok (some 3) ∧ t.get? 99 = .ok none ∧ t.isFull = true :=
      ⟨_, _, hfilled, by decide +kernel, Prod.ext (by decide +kernel) rfl, by decide +kernel, by decide +kernel,
        by decide +kernel, by decide +kernel, by decide +kernel⟩
    have ht := hs.callFixed (.extend [3, 15, 99, 7] : FixedSet.Call Nat Empty)
    rw [FixedSet.carryOut, hrun] at ht
    have hsweep := ((overflow_leaves_intact (V := Nat) _).1 s hs).2 [3, 15, 99, 7]
    rw [hrun] at hsweep
    obtain ⟨held, hheld⟩ := ((overflow_leaves_intact (V := Nat) _).1 t ht).1 3
    obtain ⟨lacking, hlacking⟩ := ((overflow_leaves_intact (V := Nat) _).1 t ht).1 99
    refine ⟨s, t, hs, hsize, hsweep, hcount, hbuckets, hheld.tryInsert_held ?_,
      hlacking.tryInsert_lacking ⟨hmisses, hfull⟩, hlacking.update.eq ⟨hmisses, hfull⟩⟩
    rintro rfl
    cases hheld.holds.get?.symm.trans hhas
  · have hnew : AnyDict.Reachable (fun _ (key : Nat) => key.toUInt64) (.fixed (⟨⟨⟨_, _⟩, _⟩, _⟩ : FixedDict Nat Nat)) :=
      .fixed (rfl : FixedDict.vacant 16 _ 0 = .ok _)
    have hfilled := hnew.callFixed
      (.extend ((List.range 15).map fun key => (key, 10 * key)) : FixedDict.Call Nat Nat Empty Empty)
    obtain ⟨d, e, hd, hsize, hrun, hcount, hbuckets, hhas, hkept, hmisses, hfull⟩ : ∃ d e : FixedDict Nat Nat,
        AnyDict.Reachable (fun _ key => key.toUInt64) (.fixed d) ∧ d.size = 15 ∧
        (FixedDict.extend [(3, 31), (15, 150), (99, 990), (7, 71)]).runOn d = (.error .dictionaryFull, e) ∧
        e.size = 16 ∧ 32 ≤ e.table.bucketCount ∧ e.get? 3 = .ok (some 31) ∧ e.get? 7 = .ok (some 70) ∧
        e.get? 99 = .ok none ∧ e.isFull = true :=
      ⟨_, _, hfilled, by decide +kernel, Prod.ext (by decide +kernel) rfl, by decide +kernel, by decide +kernel,
        by decide +kernel, by decide +kernel, by decide +kernel, by decide +kernel⟩
    have he := hd.callFixed
      (.extend [(3, 31), (15, 150), (99, 990), (7, 71)] : FixedDict.Call Nat Nat Empty Empty)
    rw [FixedDict.carryOut, hrun] at he
    have hsweep := ((overflow_leaves_intact _).2.1 d hd).2 [(3, 31), (15, 150), (99, 990), (7, 71)]
    rw [hrun] at hsweep
    obtain ⟨held, hheld⟩ := ((overflow_leaves_intact _).2.1 e he).1 3
    obtain ⟨lacking, hlacking⟩ := ((overflow_leaves_intact _).2.1 e he).1 99
    have hlacks : e.Lacks 99 := ⟨hmisses, hfull⟩
    have huncalled := (hlacking.uncalled hlacks (n := StateM Nat) (ε := Empty)).1
    refine ⟨d, e, hd, hsize, hsweep, hcount, hbuckets, hhas, hkept, hheld.tryInsert_held ?_ 32,
      hlacking.tryInsert_lacking hlacks 990, (hlacking.update 990).eq hlacks, ?_⟩
    · rintro rfl
      cases hheld.holds.get?.symm.trans hhas
    · rw [huncalled]
      rfl

end RobinHood
