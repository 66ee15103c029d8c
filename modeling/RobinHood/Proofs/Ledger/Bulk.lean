import RobinHood.Proofs.Ledger.Dicts
import RobinHood.Proofs.Ledger.Sets

/-!
# Many entries at once

What comes of a ledger to which items are brought one after the other, with all the room that they need. In a set the
first of equal keys stays; in a dictionary its first key does, and its last value.
-/

namespace RobinHood.Ledger

variable {K V ι α β : Type}

/-! ### Items one after the other -/

section Each

variable {absorb : List α → ι → List α} {step : ι → List α → Except Fault β × List α} {room : Room}

/-- The step takes an item in if there is room for what comes of it, and else refuses it. -/
structure Absorbs (room : Room) (absorb : List α → ι → List α) (step : ι → List α → Except Fault β × List α) :
    Prop where
  grows : ∀ m i, m.length ≤ (absorb m i).length
  fits : ∀ m i, (absorb m i).length ≤ room.limit → ∃ answer, step i m = (.ok answer, absorb m i)
  refuses : ∀ m i, m.length ≤ room.limit → room.limit < (absorb m i).length → step i m = (.error room.refusal, m)

theorem Absorbs.length_le (h : Absorbs room absorb step) (items : List ι) :
    ∀ m : List α, m.length ≤ (items.foldl absorb m).length := by
  induction items with
  | nil => exact fun m => Nat.le_refl _
  | cons i rest ih => exact fun m => Nat.le_trans (h.grows m i) (ih _)

theorem Absorbs.each_of_le (h : Absorbs room absorb step) (items : List ι) :
    ∀ m : List α, (items.foldl absorb m).length ≤ room.limit → each step items m = (.ok (), items.foldl absorb m) := by
  induction items with
  | nil => exact fun m _ => rfl
  | cons i rest ih =>
    intro m hroom
    obtain ⟨answer, hstep⟩ := h.fits m i (Nat.le_trans (h.length_le rest _) hroom)
    rw [each, hstep]
    exact ih _ hroom

theorem Absorbs.each_of_lt (h : Absorbs room absorb step) (items : List ι) : ∀ m : List α, m.length ≤ room.limit →
    room.limit < (items.foldl absorb m).length → (each step items m).1 = .error room.refusal := by
  induction items with
  | nil => exact fun m hle hlt => absurd hlt (Nat.not_lt.mpr hle)
  | cons i rest ih =>
    intro m hle hlt
    rw [each]
    by_cases hroom : (absorb m i).length ≤ room.limit
    · obtain ⟨answer, hstep⟩ := h.fits m i hroom
      rw [hstep]
      exact ih _ hroom hlt
    · rw [h.refuses m i hle (Nat.not_le.mp hroom)]
      rfl

end Each

variable [BEq K]

/-! ### Sets -/

/-- The members after a key was offered. One that equals it stays. -/
def offer (m : List K) (key : K) : List K :=
  if (member m key).isSome then m else key :: m

theorem absorbs_offer (room : Room) : Absorbs room offer (insert (K := K) room) where
  grows m key := by
    rw [offer]
    split
    · exact Nat.le_refl _
    · exact Nat.le_succ _
  fits m key hroom := by
    rw [offer] at hroom ⊢
    cases hmember : member m key with
    | some x => exact ⟨some key, by rw [insert, hmember]; rfl⟩
    | none =>
      rw [hmember] at hroom
      exact ⟨none, by rw [insert, hmember]; exact if_pos hroom⟩
  refuses m key hle hlt := by
    rw [offer] at hlt
    cases hmember : member m key with
    | some x =>
      rw [hmember] at hlt
      exact absurd hlt (Nat.not_lt.mpr hle)
    | none =>
      rw [hmember] at hlt
      rw [insert, hmember]
      exact if_neg (Nat.not_lt.mpr (Nat.le_of_lt_succ hlt))

/-! ### Dictionaries -/

def put (m : List (K × V)) (entry : K × V) : List (K × V) :=
  if (lookup Prod.fst m entry.1).isSome then store entry.1 entry.2 m else entry :: m

theorem length_store (key : K) (value : V) (m : List (K × V)) : (store key value m).length = m.length :=
  List.length_map ..

theorem absorbs_put (room : Room) :
    Absorbs room put fun entry : K × V => updateValue room entry.1 entry.2 where
  grows m entry := by
    rw [put]
    split
    · exact Nat.le_of_eq (length_store ..).symm
    · exact Nat.le_succ _
  fits m entry hroom := by
    rw [put] at hroom ⊢
    cases hlookup : lookup Prod.fst m entry.1 with
    | some old => exact ⟨some old.2, by rw [updateValue, hlookup]; rfl⟩
    | none =>
      rw [hlookup] at hroom
      exact ⟨none, by rw [updateValue, hlookup]; exact if_pos hroom⟩
  refuses m entry hle hlt := by
    rw [put] at hlt
    cases hlookup : lookup Prod.fst m entry.1 with
    | some old =>
      rw [hlookup, Option.isSome_some, if_pos rfl, length_store] at hlt
      exact absurd hlt (Nat.not_lt.mpr hle)
    | none =>
      rw [hlookup] at hlt
      rw [updateValue, hlookup]
      exact if_neg (Nat.not_lt.mpr (Nat.le_of_lt_succ hlt))

/-! ### What is found afterwards -/

section Lookup

variable [EquivBEq K] {keyOf : α → K}

omit [EquivBEq K] in
theorem lookup_singleton_of_ne {x : α} {key : K} (hne : (keyOf x == key) = false) : lookup keyOf [x] key = none := by
  rw [lookup_eq_none_iff]
  rintro y hy
  rwa [List.mem_singleton.mp hy]

theorem member_offer (m : List K) (offered key : K) : member (offer m offered) key = member (m ++ [offered]) key := by
  rw [offer, member, member, member, lookup_append]
  cases hkey : offered == key with
  | true =>
    rw [lookup_congr id m hkey]
    cases hmember : lookup id m key with
    | some x => exact hmember
    | none => exact (lookup_cons_self hkey).trans (lookup_cons_self hkey).symm
  | false =>
    have hne : (id offered == key) = false := hkey
    rw [lookup_singleton_of_ne hne, Option.or_none]
    split
    · rfl
    · exact List.find?_cons_of_neg (Bool.eq_false_iff.mp hkey)

/-- Of equal keys the first one stays. -/
theorem member_offers (keys : List K) : ∀ (m : List K) (key : K),
    member (keys.foldl offer m) key = member (m ++ keys) key := by
  induction keys with
  | nil => exact fun m key => by rw [List.append_nil]; rfl
  | cons offered rest ih =>
    intro m key
    calc member (rest.foldl offer (offer m offered)) key
      _ = (member (offer m offered) key).or (member rest key) := by rw [ih, member, lookup_append]; rfl
      _ = (member (m ++ [offered]) key).or (member rest key) := by rw [member_offer]
      _ = member (m ++ offered :: rest) key := by
        rw [member, member, member, ← lookup_append, List.append_assoc, List.singleton_append]

theorem lookup_store (key : K) (value : V) (m : List (K × V)) (asked : K) :
    lookup Prod.fst (store key value m) asked = (lookup Prod.fst m asked).map fun entry =>
      if (key == asked) = true then (entry.1, value) else entry := by
  have hkeys : ∀ entry : K × V, (if entry.1 == key then (entry.1, value) else entry).1 = entry.1 := by
    intro entry
    split <;> rfl
  rw [store, amend, lookup, List.find?_map]
  simp only [Function.comp_def, hkeys]
  change (lookup Prod.fst m asked).map _ = _
  refine Option.map_congr fun entry hfound => ?_
  rw [BEq.congr_left (mem_of_lookup hfound).2, BEq.comm]

section Put

variable {m : List (K × V)} {entry : K × V} {key : K}

theorem lookup_put_self (hkey : (entry.1 == key) = true) :
    lookup Prod.fst (put m entry) key = some ((lookup Prod.fst m key).elim entry.1 Prod.fst, entry.2) := by
  rw [put, lookup_congr Prod.fst m hkey]
  cases hlookup : lookup Prod.fst m key with
  | some old =>
    rw [Option.isSome_some, if_pos rfl, lookup_store, hlookup, Option.map_some, if_pos hkey]
    rfl
  | none => exact lookup_cons_self hkey

theorem lookup_put_of_ne (hne : (entry.1 == key) = false) :
    lookup Prod.fst (put m entry) key = lookup Prod.fst m key := by
  rw [put]
  split
  · rw [lookup_store]
    simp only [hne, Bool.false_eq_true, if_false, Option.map_id']
  · exact List.find?_cons_of_neg (Bool.eq_false_iff.mp hne)

theorem key_put : (lookup Prod.fst (put m entry) key).map Prod.fst =
    (lookup Prod.fst (m ++ [entry]) key).map Prod.fst := by
  rw [lookup_append]
  cases hkey : entry.1 == key with
  | true =>
    rw [lookup_put_self hkey, lookup_cons_self hkey]
    cases lookup Prod.fst m key <;> rfl
  | false => rw [lookup_put_of_ne hkey, lookup_singleton_of_ne hkey, Option.or_none]

theorem value_put : (lookup Prod.fst (put m entry) key).map Prod.snd =
    ((lookup Prod.fst [entry] key).or (lookup Prod.fst m key)).map Prod.snd := by
  cases hkey : entry.1 == key with
  | true =>
    rw [lookup_put_self hkey, lookup_cons_self hkey]
    rfl
  | false => rw [lookup_put_of_ne hkey, lookup_singleton_of_ne hkey, Option.none_or]

end Put

theorem key_puts (entries : List (K × V)) : ∀ (m : List (K × V)) (key : K),
    (lookup Prod.fst (entries.foldl put m) key).map Prod.fst = (lookup Prod.fst (m ++ entries) key).map Prod.fst := by
  induction entries with
  | nil => exact fun m key => by rw [List.append_nil]; rfl
  | cons entry rest ih =>
    intro m key
    calc (lookup Prod.fst (rest.foldl put (put m entry)) key).map Prod.fst
      _ = ((lookup Prod.fst (put m entry) key).map Prod.fst).or ((lookup Prod.fst rest key).map Prod.fst) := by
        rw [ih, lookup_append, Option.map_or]
      _ = ((lookup Prod.fst (m ++ [entry]) key).map Prod.fst).or ((lookup Prod.fst rest key).map Prod.fst) := by
        rw [key_put]
      _ = (lookup Prod.fst (m ++ entry :: rest) key).map Prod.fst := by
        rw [← Option.map_or, ← lookup_append, List.append_assoc, List.singleton_append]

/-- The last value under a key stays. -/
theorem value_puts (entries : List (K × V)) : ∀ (m : List (K × V)) (key : K),
    (lookup Prod.fst (entries.foldl put m) key).map Prod.snd =
      ((lookup Prod.fst entries.reverse key).or (lookup Prod.fst m key)).map Prod.snd := by
  induction entries with
  | nil => exact fun m key => rfl
  | cons entry rest ih =>
    intro m key
    calc (lookup Prod.fst (rest.foldl put (put m entry)) key).map Prod.snd
      _ = ((lookup Prod.fst rest.reverse key).map Prod.snd).or ((lookup Prod.fst (put m entry) key).map Prod.snd) := by
        rw [ih, Option.map_or]
      _ = ((lookup Prod.fst rest.reverse key).map Prod.snd).or
          (((lookup Prod.fst [entry] key).or (lookup Prod.fst m key)).map Prod.snd) := by
        rw [value_put]
      _ = ((lookup Prod.fst (entry :: rest).reverse key).or (lookup Prod.fst m key)).map Prod.snd := by
        rw [← Option.map_or, ← Option.or_assoc, ← lookup_append, List.reverse_cons]

end Lookup

end RobinHood.Ledger
