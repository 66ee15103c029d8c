import RobinHood.Proofs.Calls.Keyed
import RobinHood.Proofs.Reachable

/-!
# Edits as plain operations

An edit takes the value out before it hands it to the caller's function, and finishes with the slot empty. Still it
leaves nothing behind that the plain operation would not have left: the same buckets, keys and values, the same
capacity and seeds, the same journal. This holds whatever the hashes are, also where the function gives up.
-/

namespace RobinHood

open RobinHood.Action

variable {σ K V R : Type}

namespace Keyed

/-- What an edit comes to that found a value or none: the plain operation for what the caller's function left, and
its answer. Where there was no value, a function that gives up leaves none. -/
def conclude (ops : Keyed σ K V) (s : σ) : (held : Option V) → Edited V R → Except Fault R × σ
  | some _, ⟨some value, answer⟩ => andThen ((ops.update value).runOn s) fun _ t => (answer, t)
  | some _, ⟨none, answer⟩ => andThen (ops.removeEntry.runOn s) fun _ t => (answer, t)
  | none, ⟨_, .error fault⟩ => (.error fault, s)
  | none, ⟨some value, .ok answer⟩ => andThen ((ops.insert value).runOn s) fun _ t => (.ok answer, t)
  | none, ⟨none, .ok answer⟩ => (.ok answer, s)

/-- Edits ask the caller's function once, about what is held, and then do a plain operation. A held value can be
updated and removed; another is inserted, or refused without a change. -/
structure EditsPlainly (ops : Keyed σ K V) (s : σ) (held : Option V) : Prop where
  get? : ops.get? s = .ok held
  edit : ∀ {m : Type → Type} [Monad m] [LawfulMonad m] {R : Type} (f : Option V → m (Edited V R)),
    (ops.edit f).runOn s = ops.conclude s held <$> f held
  update : ∀ old, held = some old → ∀ value, ∃ t, (ops.update value).runOn s = (.ok (some old), t)
  removeEntry : ∀ old, held = some old → ∃ key t, ops.removeEntry.runOn s = (.ok (some (key, old)), t)
  insert : held = none → ∀ value, (∃ t, (ops.insert value).runOn s = (.ok none, t)) ∨
    ∃ fault, (ops.insert value).runOn s = (.error fault, s)

end Keyed

/-- Only whether a step stopped decides what follows. -/
theorem andThen_reply {α β : Type} (step : Except Fault α × σ) (x : β) (answer : R) :
    andThen (reply (fun _ => x) step) (fun _ t => (.ok answer, t)) = reply (fun _ => answer) step := by
  obtain ⟨outcome, t⟩ := step
  cases outcome <;> rfl

namespace Steps

variable {steps : Steps σ K V} {s : σ} {b : Nat} {hash : UInt64} {key : K} {old : V}

theorem Finds.editsPlainly {after : Option V → σ} (h : steps.Finds s b key old after) :
    steps.keyed.EditsPlainly s (some old) where
  get? := h.get?
  edit f := by
    rw [h.runOn_edit]
    congr 1
    funext ⟨left, answer⟩
    cases left with
    | some value => rw [Keyed.conclude, h.runOn_update, andThen]
    | none => rw [Keyed.conclude, h.runOn_removeEntry, andThen]
  update := by
    rintro _ ⟨⟩ value
    exact ⟨_, h.runOn_update value⟩
  removeEntry := by
    rintro _ ⟨⟩
    exact ⟨_, _, h.runOn_removeEntry⟩
  insert := nofun

theorem editsPlainly_of_miss (hsearch : steps.search s = .ok ⟨none, hash⟩)
    (henter : ∀ value, (∃ bucket t, (steps.enter value hash).runOn s = (.ok bucket, t)) ∨
      ∃ fault, (steps.enter value hash).runOn s = (.error fault, s)) :
    steps.keyed.EditsPlainly s none where
  get? := get?_of_miss hsearch
  edit f := by
    rw [runOn_edit_of_miss hsearch]
    congr 1
    funext ⟨left, answer⟩
    cases answer with
    | error fault => rw [Keyed.conclude]
    | ok answer =>
      cases left with
      | none => rw [Keyed.conclude]
      | some value => rw [Keyed.conclude, runOn_insert_of_miss hsearch, andThen_reply]
  update := nofun
  removeEntry := nofun
  insert _ value := by
    rw [runOn_insert_of_miss hsearch]
    obtain ⟨bucket, t, hrun⟩ | ⟨fault, hrun⟩ := henter value
    · exact .inl ⟨t, by rw [hrun]; rfl⟩
    · exact .inr ⟨fault, by rw [hrun]; rfl⟩

end Steps

variable [BEq K] {hasher : Hasher K} {c : Nat} {m : List (K × V)}

theorem FixedDict.runOn_insert_full {d : FixedDict K V} {key : K} {hash : UInt64}
    (hsearch : d.keys.search key = .ok ⟨none, hash⟩) (hfull : d.isFull = true) (value : V) :
    (insert key value).runOn d = (.error .dictionaryFull, d) :=
  (Steps.runOn_insert_of_miss (show (steps key).search d = _ from hsearch) value).trans
    (congrArg (reply fun _ => none) (runOn_insertNew_full (beq_iff_eq.mp hfull)))

theorem FixedDict.Steady.editsPlainly {d : FixedDict K V} (h : Steady hasher c d m) (key : K) :
    ∃ held, (under key).EditsPlainly d held ∧
      (held = none → d.isFull = true → ∀ value, (FixedDict.insert key value).runOn d = (.error .dictionaryFull, d)) := by
  obtain ⟨b, x, hash, hsearch, hx, -⟩ | ⟨hsearch, -⟩ := (steady hasher).search h key
  · obtain ⟨t, hfinds⟩ := h.finds hsearch hx
    exact ⟨some x.2, hfinds.editsPlainly, nofun⟩
  · refine ⟨none, Steps.editsPlainly_of_miss (show (steps key).search d = _ from hsearch) fun value => ?_,
      fun _ hfull value => runOn_insert_full hsearch hfull value⟩
    have hapart : ∀ y ∈ m, (steady hasher).Apart (key, value) y := fun _ _ => trivial
    have henters := Upkeep.insertNew_enters h hapart
    rw [Ledger.Enters] at henters
    split at henters
    · obtain ⟨t, bucket, hrun, -⟩ := henters
      exact .inl ⟨bucket, t, hrun⟩
    · exact .inr ⟨_, henters⟩

theorem GrowDict.editsPlainly {g : GrowDict K V} (h : (FixedDict.steady hasher).Held g m) (key : K) :
    ∃ held, (under key).EditsPlainly g held := by
  obtain ⟨b, x, hash, hsearch, hx, -⟩ | ⟨hsearch, -⟩ := (FixedDict.steady hasher).search h.keeps key
  · obtain ⟨t, hfinds⟩ := finds h hsearch hx
    exact ⟨some x.2, hfinds.editsPlainly⟩
  · refine ⟨none, Steps.editsPlainly_of_miss (show (steps key).search g = _ from hsearch) fun value => ?_⟩
    obtain ⟨-, t, bucket, hrun, -⟩ | ⟨-, hrun⟩ := h.insertAbsent (x := (key, value)) fun _ _ => trivial
    · exact .inl ⟨bucket, t, hrun⟩
    · exact .inr ⟨_, hrun⟩

/-- Whatever a dictionary has been through, an edit under any key, by any function of the caller, is the plain
operation that this function asks for. -/
theorem edits_are_plain (hasher : Hasher K) :
    (∀ d : FixedDict K V, AnyDict.Reachable hasher (.fixed d) → ∀ key, ∃ held,
      (FixedDict.under key).EditsPlainly d held ∧
      (held = none → d.isFull = true →
        ∀ value, (FixedDict.insert key value).runOn d = (.error .dictionaryFull, d))) ∧
    ∀ g : GrowDict K V, AnyDict.Reachable hasher (.growing g) → ∀ key, ∃ held,
      (GrowDict.under key).EditsPlainly g held := by
  refine ⟨fun d hd key => ?_, fun g hg key => ?_⟩
  · obtain ⟨c, m, hsteady⟩ := hd.keptBy (FixedDict.steady hasher)
    exact FixedDict.Steady.editsPlainly hsteady key
  · obtain ⟨m, hheld⟩ := hg.keptBy (FixedDict.steady hasher)
    exact GrowDict.editsPlainly hheld key

/-- The caller's function takes the value of the only entry and gives up: the dictionary shrinks as it would had
the entry been removed. -/
theorem edits_are_plain_after_abort : ∃ g : GrowDict Nat String,
    AnyDict.Reachable (fun _ key => key.toUInt64) (.growing g) ∧ (GrowDict.under 1).EditsPlainly g (some "one") ∧
    (GrowDict.edit (m := Id) 1 fun _ => (⟨none, .error (.aborted "stop")⟩ : Edited String Unit)).runOn g =
      (.error (.aborted "stop"), ((GrowDict.removeEntry 1).runOn g).2) ∧
    g.capacity = 4 ∧ ((GrowDict.removeEntry 1).runOn g).2.capacity = 0 := by
  have hnew : AnyDict.Reachable (V := String) (fun _ (key : Nat) => key.toUInt64) (.growing ⟨_, .constant 0, []⟩) :=
    .growing (rfl : GrowDict.vacant 0 _ _ = .ok _)
  have hroom := hnew.callGrowing (.reserve 3 : GrowDict.Call Nat String Empty Empty)
  have hone := hroom.callGrowing (.entry (.insert 1 "one") : GrowDict.Call Nat String Empty Empty)
  obtain ⟨g, hg, hget, hbefore, hafter⟩ : ∃ g : GrowDict Nat String,
      AnyDict.Reachable (fun _ key => key.toUInt64) (.growing g) ∧ g.storage.get? 1 = .ok (some "one") ∧
      g.capacity = 4 ∧ ((GrowDict.removeEntry 1).runOn g).2.capacity = 0 := ⟨_, hone, rfl, rfl, rfl⟩
  obtain ⟨held, hplain⟩ := (edits_are_plain _).2 g hg 1
  obtain rfl : held = some "one" := Except.ok.inj (hplain.get?.symm.trans hget)
  obtain ⟨key, t, hremove⟩ := hplain.removeEntry _ rfl
  have hedit := hplain.edit (m := Id) fun _ => (⟨none, .error (.aborted "stop")⟩ : Edited String Unit)
  refine ⟨g, hg, hplain, hedit.trans ?_, hbefore, hafter⟩
  change andThen ((GrowDict.removeEntry 1).runOn g) _ = _
  rw [show (GrowDict.removeEntry 1).runOn g = _ from hremove]
  rfl

end RobinHood
