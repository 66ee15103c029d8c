import RobinHood.Proofs.Ledger.Basic

/-!
# What is expected of sets

The requests that every set answers, and the answers expected of a set that remembers which of several
equal keys it was given: a ledger of keys that are their own keys.
-/

namespace RobinHood

inductive SetRequest (K : Type) where
  | insert (key : K)
  | update (key : K)
  | remove (key : K)
  | get (key : K)
  | contains (key : K)
  /-- Asks for the index of a key, and for the member at that index. -/
  | locate (key : K)
  /-- Removes every member. A growing set may keep its storage. -/
  | clear (keeping : Bool)
  deriving DecidableEq

inductive SetReply (K : Type) where
  | done
  | flag (answer : Bool)
  | member (answer : Option K)
  deriving DecidableEq

namespace Ledger

variable {K : Type} [BEq K]

def member (m : List K) (key : K) : Option K :=
  lookup id m key

/-- Inserting a key that is present hands it back and keeps the member. -/
def insert (room : Room) (key : K) (m : List K) : Except Fault (Option K) × List K :=
  match member m key with
  | some _ => (.ok (some key), m)
  | none => enter room m key none

/-- Updating with a key that is present exchanges it for the member. -/
def update (room : Room) (key : K) (m : List K) : Except Fault (Option K) × List K :=
  match member m key with
  | some old => (.ok (some old), amend id (fun _ => key) m key)
  | none => enter room m key none

def remove (key : K) (m : List K) : Except Fault (Option K) × List K :=
  (.ok (member m key), strike id m key)

/-- The reply expected of a set with members `m`, and the members it should have then. -/
def answerSet (room : Room) : SetRequest K → List K → Except Fault (SetReply K) × List K
  | .insert key, m => reply .member (insert room key m)
  | .update key, m => reply .member (update room key m)
  | .remove key, m => reply .member (remove key m)
  | .get key, m => (.ok (.member (member m key)), m)
  | .contains key, m => (.ok (.flag (member m key).isSome), m)
  | .locate key, m => (.ok (.member (member m key)), m)
  | .clear _, _ => (.ok .done, [])

theorem answerSet_eq_of_room {room room' : Room} {request : SetRequest K} {m : List K}
    (hroom : (answerSet room request m).1 ≠ .error room.refusal)
    (hroom' : (answerSet room' request m).1 ≠ .error room'.refusal) :
    answerSet room request m = answerSet room' request m := by
  cases request with
  | insert key =>
    simp only [answerSet, insert] at hroom hroom' ⊢
    cases hmember : member m key with
    | some _ => rfl
    | none =>
      simp only [hmember] at hroom hroom'
      rw [enter_eq_of_room (ne_error_of_reply hroom) (ne_error_of_reply hroom')]
  | update key =>
    simp only [answerSet, update] at hroom hroom' ⊢
    cases hmember : member m key with
    | some _ => rfl
    | none =>
      simp only [hmember] at hroom hroom'
      rw [enter_eq_of_room (ne_error_of_reply hroom) (ne_error_of_reply hroom')]
  | remove key => rfl
  | get key => rfl
  | contains key => rfl
  | locate key => rfl
  | clear keeping => rfl

theorem member_of_mem [EquivBEq K] {m : List K} {key : K} (hkey : key ∈ m) : (member m key).isSome = true := by
  rw [Option.isSome_iff_ne_none]
  intro hnone
  cases (lookup_eq_none_iff.mp hnone key hkey).symm.trans BEq.rfl

end Ledger

end RobinHood
