import RobinHood.Proofs.FixedDict.Hashes
import RobinHood.Proofs.FixedSet.Hashes
import RobinHood.Proofs.Requests

/-!
# Hashes follow equality

Containers that are equal hash alike, in whatever buckets their elements sit. What is inserted or removed is folded
into the hash or out of it, also where the storage is replaced on the way.
-/

namespace RobinHood

open RobinHood.Ledger

variable {K V ε R : Type} [BEq K] [EquivBEq K] {hasher hasher' : Hasher K}

/-! ### Sets -/

namespace AnySet

/-- How the hashes of a set follow its members. -/
structure HashesFollow [Digestible K] (hash : ByteHash) (s : AnySet K) : Prop where
  request : ∀ request key, request.key? = some key →
    s.storage.AgreeBut key (s.answer request).2.storage ∧ s.storage.HashesUpTo hash key (s.answer request).2.storage
  insert : ∀ key, s.storage.get? key = .ok none →
    (∃ t, s.answer (.insert key) = (.ok (.member none), t) ∧ t.storage.get? key = .ok (some key) ∧
      s.storage.HashesBy hash (fun seed => hash.member seed key) t.storage) ∨
    (∃ fault t, s.answer (.insert key) = (.error fault, t) ∧ s.storage.HashesAlike hash t.storage)
  remove : ∀ key x, s.storage.get? key = .ok (some x) →
    ∃ t, s.answer (.remove key) = (.ok (.member (some x)), t) ∧ t.storage.get? key = .ok none ∧
      s.storage.HashesBy hash (fun seed => hash.member seed x) t.storage
  undo : ∀ request request' key key', request.key? = some key → request'.key? = some key' → (key' == key) = true →
    s.storage.get? key = .ok none → ((s.answer request).2.answer request').2.storage.get? key = .ok none →
    s.storage.HashesAlike hash ((s.answer request).2.answer request').2.storage

variable {room : Room} {s : AnySet K} {m : List K} {key : K}

theorem Keeps.get? (h : s.Keeps hasher room m) (hlawful : hasher.Lawful) (key : K) :
    s.storage.get? key = .ok (member m key) := by
  obtain ⟨c, hkeeps⟩ := h.storage
  exact hkeeps.get? hlawful key

/-- A request about a key leaves the other keys alone. -/
theorem Keeps.agreeBut (h : s.Keeps hasher room m) (hlawful : hasher.Lawful) {request : SetRequest K}
    (hkey : request.key? = some key) : s.storage.AgreeBut key (s.answer request).2.storage := by
  obtain ⟨c, hbefore⟩ := h.storage
  obtain ⟨c', hafter⟩ := (h.answer hlawful request).2.storage
  exact hbefore.agreeBut hafter hlawful hlawful (strike_answerSet room hkey m)

variable [Digestible K] (hkeys : ∀ a b : K, (a == b) = true → bytes a = bytes b) (hash : ByteHash)

include hkeys

theorem Keeps.hashesUpTo (h : s.Keeps hasher room m) (hlawful : hasher.Lawful) (request : SetRequest K)
    (hkey : request.key? = some key) : s.storage.HashesUpTo hash key (s.answer request).2.storage := by
  have hagree := h.agreeBut hlawful hkey
  obtain ⟨c, hbefore⟩ := h.storage
  obtain ⟨c', hafter⟩ := (h.answer hlawful request).2.storage
  exact hbefore.hashesUpTo hafter hlawful hlawful hkeys hagree hash

theorem Keeps.insert_hashes (h : s.Keeps hasher room m) (hlawful : hasher.Lawful) (hmissing : member m key = none) :
    (∃ t, s.answer (.insert key) = (.ok (.member none), t) ∧ t.storage.get? key = .ok (some key) ∧
      s.storage.HashesBy hash (fun seed => hash.member seed key) t.storage) ∨
    (∃ fault t, s.answer (.insert key) = (.error fault, t) ∧ s.storage.HashesAlike hash t.storage) := by
  have hby := h.hashesUpTo hkeys hash hlawful (.insert key) rfl
  obtain ⟨hsame, hafter⟩ := h.answer hlawful (.insert key)
  simp only [answerSet, reply, Ledger.insert, hmissing, enter] at hsame hafter
  by_cases hroom : m.length < room.limit
  · rw [if_pos hroom] at hsame hafter
    have hfound : (s.answer (.insert key)).2.storage.get? key = .ok (some key) :=
      (hafter.get? hlawful key).trans (congrArg Except.ok (lookup_cons_self BEq.rfl))
    exact .inl ⟨_, Prod.ext hsame rfl, hfound, hby.of_inserted (hmissing ▸ h.get? hlawful key) hfound⟩
  · rw [if_neg hroom] at hsame hafter
    obtain ⟨c, hbefore⟩ := h.storage
    obtain ⟨c', hafter⟩ := hafter.storage
    have halike := hbefore.hashesAlike hafter hlawful hlawful hkeys
      ((hbefore.sameKeys_iff hafter hlawful hlawful).mpr fun _ => rfl) hash
    exact .inr ⟨_, _, Prod.ext hsame rfl, halike⟩

theorem Keeps.remove_hashes (h : s.Keeps hasher room m) (hlawful : hasher.Lawful) {x : K}
    (hmember : member m key = some x) :
    ∃ t, s.answer (.remove key) = (.ok (.member (some x)), t) ∧ t.storage.get? key = .ok none ∧
      s.storage.HashesBy hash (fun seed => hash.member seed x) t.storage := by
  have hby := h.hashesUpTo hkeys hash hlawful (.remove key) rfl
  obtain ⟨hsame, hafter⟩ := h.answer hlawful (.remove key)
  simp only [answerSet, reply, Ledger.remove, hmember] at hsame hafter
  have hmissing : (s.answer (.remove key)).2.storage.get? key = .ok none :=
    (hafter.get? hlawful key).trans (congrArg Except.ok (lookup_strike_self BEq.rfl))
  exact ⟨_, Prod.ext hsame rfl, hmissing, hby.of_removed (hmember ▸ h.get? hlawful key) hmissing⟩

theorem Keeps.undo_hashes (h : s.Keeps hasher room m) (hlawful : hasher.Lawful) {request request' : SetRequest K}
    {key' : K} (hkey : request.key? = some key) (hkey' : request'.key? = some key') (hequal : (key' == key) = true)
    (hmissing : s.storage.get? key = .ok none)
    (hmissing' : ((s.answer request).2.answer request').2.storage.get? key = .ok none) :
    s.storage.HashesAlike hash ((s.answer request).2.answer request').2.storage := by
  have hbetween := (h.answer hlawful request).2
  have hafter := (hbetween.answer hlawful request').2
  have hagree : s.storage.AgreeBut key ((s.answer request).2.answer request').2.storage := fun k hk =>
    (h.agreeBut hlawful hkey k hk).trans (hbetween.agreeBut hlawful hkey' k (by rw [BEq.congr_right hequal, hk]))
  rw [h.get? hlawful] at hmissing
  rw [hafter.get? hlawful] at hmissing'
  obtain ⟨c, hbefore⟩ := h.storage
  obtain ⟨c', hafter⟩ := hafter.storage
  exact hbefore.hashesAlike hafter hlawful hlawful hkeys (hbefore.sameKeys_of_agreeBut hafter hlawful hlawful hagree
    (Except.ok.inj hmissing) (Except.ok.inj hmissing')) hash

theorem Keeps.hashesFollow (h : s.Keeps hasher room m) (hlawful : hasher.Lawful) : s.HashesFollow hash where
  request _ _ hkey := ⟨h.agreeBut hlawful hkey, h.hashesUpTo hkeys hash hlawful _ hkey⟩
  insert key hmissing := by
    rw [h.get? hlawful, Except.ok.injEq] at hmissing
    exact h.insert_hashes hkeys hash hlawful hmissing
  remove key x hpresent := by
    rw [h.get? hlawful, Except.ok.injEq] at hpresent
    exact h.remove_hashes hkeys hash hlawful hpresent
  undo _ _ _ _ := h.undo_hashes hkeys hash hlawful

end AnySet

/-! ### Dictionaries -/

namespace AnyDict

structure HashesFollow [Digestible K] [Digestible V] (ε R : Type) (hash : ByteHash) (d : AnyDict K V) : Prop where
  request : ∀ (request : DictRequest K V ε R) key, request.key? = some key →
    d.storage.AgreeBut key (d.answer request).2.storage ∧ d.storage.HashesUpTo hash key (d.answer request).2.storage
  insert : ∀ key v, d.storage.get? key = .ok none →
    (∃ e, d.answer (.insert key v : DictRequest K V ε R) = (.ok (.value none), e) ∧
      e.storage.get? key = .ok (some v) ∧ d.storage.HashesBy hash (fun seed => hash.pair seed key v) e.storage) ∨
    (∃ fault e, d.answer (.insert key v : DictRequest K V ε R) = (.error fault, e) ∧
      d.storage.HashesAlike hash e.storage)
  remove : ∀ key v, d.storage.get? key = .ok (some v) →
    ∃ e, d.answer (.remove key : DictRequest K V ε R) = (.ok (.value (some v)), e) ∧
      e.storage.get? key = .ok none ∧ d.storage.HashesBy hash (fun seed => hash.pair seed key v) e.storage
  undo : ∀ (request request' : DictRequest K V ε R) key key', request.key? = some key → request'.key? = some key' →
    (key' == key) = true →
    d.storage.get? key = .ok none → ((d.answer request).2.answer request').2.storage.get? key = .ok none →
    d.storage.HashesAlike hash ((d.answer request).2.answer request').2.storage

variable {beforehand : Bool} {room : Room} {d : AnyDict K V} {m : List (K × V)} {key : K} {v : V}

theorem Keeps.get? (h : d.Keeps hasher beforehand room m) (hlawful : hasher.Lawful) (key : K) :
    d.storage.get? key = .ok (Ledger.value m key) := by
  obtain ⟨c, hkeeps⟩ := h.storage
  exact hkeeps.get? hlawful key

theorem Keeps.agreeBut (h : d.Keeps hasher beforehand room m) (hlawful : hasher.Lawful)
    {request : DictRequest K V ε R} (hkey : request.key? = some key) :
    d.storage.AgreeBut key (d.answer request).2.storage := by
  obtain ⟨c, hbefore⟩ := h.storage
  obtain ⟨c', hafter⟩ := (h.answer hlawful request).2.storage
  exact hbefore.agreeBut hafter hlawful hlawful (strike_answerDict beforehand room hkey m)

variable [Digestible K] [Digestible V] (hkeys : ∀ a b : K, (a == b) = true → bytes a = bytes b) (hash : ByteHash)

include hkeys

theorem Keeps.hashesUpTo (h : d.Keeps hasher beforehand room m) (hlawful : hasher.Lawful)
    (request : DictRequest K V ε R) (hkey : request.key? = some key) :
    d.storage.HashesUpTo hash key (d.answer request).2.storage := by
  have hagree := h.agreeBut hlawful hkey
  obtain ⟨c, hbefore⟩ := h.storage
  obtain ⟨c', hafter⟩ := (h.answer hlawful request).2.storage
  exact hbefore.hashesUpTo hafter hlawful hlawful hkeys hagree hash

theorem Keeps.insert_hashes (h : d.Keeps hasher beforehand room m) (hlawful : hasher.Lawful) (v : V)
    (hmissing : lookup Prod.fst m key = none) :
    (∃ e, d.answer (.insert key v : DictRequest K V ε R) = (.ok (.value none), e) ∧
      e.storage.get? key = .ok (some v) ∧ d.storage.HashesBy hash (fun seed => hash.pair seed key v) e.storage) ∨
    (∃ fault e, d.answer (.insert key v : DictRequest K V ε R) = (.error fault, e) ∧
      d.storage.HashesAlike hash e.storage) := by
  have hby := h.hashesUpTo hkeys hash hlawful (.insert key v : DictRequest K V ε R) rfl
  obtain ⟨hsame, hafter⟩ := h.answer hlawful (.insert key v : DictRequest K V ε R)
  have habsent : d.storage.get? key = .ok none := by rw [h.get? hlawful, Ledger.value, hmissing, Option.map_none]
  simp only [answerDict, reply, insertValue, hmissing, enter] at hsame hafter
  by_cases hroom : m.length < room.limit
  · rw [if_pos hroom] at hsame hafter
    have hfound : (d.answer (.insert key v : DictRequest K V ε R)).2.storage.get? key = .ok (some v) := by
      rw [hafter.get? hlawful, Ledger.value, lookup_cons_self BEq.rfl, Option.map_some]
    exact .inl ⟨_, Prod.ext hsame rfl, hfound, hby.of_inserted habsent hfound⟩
  · rw [if_neg hroom] at hsame hafter
    obtain ⟨c, hbefore⟩ := h.storage
    obtain ⟨c', hafter⟩ := hafter.storage
    exact .inr ⟨_, _, Prod.ext hsame rfl, hbefore.hashesAlike hafter hkeys fun _ _ => rfl⟩

theorem Keeps.remove_hashes (h : d.Keeps hasher beforehand room m) (hlawful : hasher.Lawful)
    (hpresent : Ledger.value m key = some v) :
    ∃ e, d.answer (.remove key : DictRequest K V ε R) = (.ok (.value (some v)), e) ∧
      e.storage.get? key = .ok none ∧ d.storage.HashesBy hash (fun seed => hash.pair seed key v) e.storage := by
  have hby := h.hashesUpTo hkeys hash hlawful (.remove key : DictRequest K V ε R) rfl
  obtain ⟨hsame, hafter⟩ := h.answer hlawful (.remove key : DictRequest K V ε R)
  have hmissing : (d.answer (.remove key : DictRequest K V ε R)).2.storage.get? key = .ok none := by
    apply (hafter.get? hlawful key).trans
    simp only [answerDict, reply, Ledger.removeEntry, Ledger.value, lookup_strike_self BEq.rfl, Option.map_none]
  have hremoved : (d.answer (.remove key : DictRequest K V ε R)).1 = .ok (.value (some v)) :=
    hsame.trans (congrArg (fun removed => Except.ok (DictReply.value removed)) hpresent)
  exact ⟨_, Prod.ext hremoved rfl, hmissing, hby.of_removed (hpresent ▸ h.get? hlawful key) hmissing⟩

theorem Keeps.undo_hashes (h : d.Keeps hasher beforehand room m) (hlawful : hasher.Lawful)
    {request request' : DictRequest K V ε R} {key' : K} (hkey : request.key? = some key)
    (hkey' : request'.key? = some key') (hequal : (key' == key) = true) (hmissing : d.storage.get? key = .ok none)
    (hmissing' : ((d.answer request).2.answer request').2.storage.get? key = .ok none) :
    d.storage.HashesAlike hash ((d.answer request).2.answer request').2.storage := by
  have hbetween := (h.answer hlawful request).2
  have hafter := (hbetween.answer hlawful request').2
  have hagree : d.storage.AgreeBut key ((d.answer request).2.answer request').2.storage := fun k hk =>
    (h.agreeBut hlawful hkey k hk).trans (hbetween.agreeBut hlawful hkey' k (by rw [BEq.congr_right hequal, hk]))
  rw [h.get? hlawful] at hmissing
  rw [hafter.get? hlawful] at hmissing'
  obtain ⟨c, hbefore⟩ := h.storage
  obtain ⟨c', hafter⟩ := hafter.storage
  have hsame := hbefore.value_eq_of_agreeBut hafter hlawful hlawful hagree (Except.ok.inj hmissing)
    (Except.ok.inj hmissing')
  exact hbefore.hashesAlike hafter hkeys fun seed k => by rw [hsame k]

theorem Keeps.hashesFollow (h : d.Keeps hasher beforehand room m) (hlawful : hasher.Lawful) :
    d.HashesFollow ε R hash where
  request _ _ hkey := ⟨h.agreeBut hlawful hkey, h.hashesUpTo hkeys hash hlawful _ hkey⟩
  insert key v hmissing := by
    rw [h.get? hlawful, Except.ok.injEq, Ledger.value, Option.map_eq_none_iff] at hmissing
    exact h.insert_hashes hkeys hash hlawful v hmissing
  remove key v hpresent := by
    rw [h.get? hlawful, Except.ok.injEq] at hpresent
    exact h.remove_hashes hkeys hash hlawful hpresent
  undo _ _ _ _ := h.undo_hashes hkeys hash hlawful

end AnyDict

/-! ### Containers of either kind -/

/-- The hash of a container says what is in it, and nothing about buckets, capacities, seeds, placement or history.
Containers that are equal hash alike; where they differ under one key, or a request changes what is under it, so do
the hashes. -/
theorem unorderedHash_extensional [BEq V] [Digestible K] [Digestible V] (hlawful : hasher.Lawful)
    (hlawful' : hasher'.Lawful) (hkeys : ∀ a b : K, (a == b) = true → bytes a = bytes b)
    (hvalues : ∀ v w : V, (v == w) = true → bytes v = bytes w) (hash : ByteHash) :
    (∀ s t : AnySet K, s.Reachable hasher → t.Reachable hasher' →
      (s.Equal t → s.storage.HashesAlike hash t.storage) ∧
      ∀ key, s.storage.AgreeBut key t.storage → s.storage.HashesUpTo hash key t.storage) ∧
    (∀ d e : AnyDict K V, d.Reachable hasher → e.Reachable hasher' →
      (d.Equal e → d.storage.HashesAlike hash e.storage) ∧
      ∀ key, d.storage.AgreeBut key e.storage → d.storage.HashesUpTo hash key e.storage) ∧
    (∀ s : AnySet K, s.Reachable hasher → s.HashesFollow hash) ∧
    (∀ d : AnyDict K V, d.Reachable hasher → d.HashesFollow ε R hash) ∧
    (∀ s : FixedSet K, s.unorderedHash = s.unorderedHashBy Sip.hash ∧ s.digestInto = s.feedInto Sip.hash .digests ∧
      ∀ key, ((FixedSet.tryInsert key).runOn s).2 = ((FixedSet.insert key).runOn s).2) ∧
    (∀ d : FixedDict K V, d.unorderedHash = d.unorderedHashBy Sip.hash ∧ d.digestInto = d.feedInto Sip.hash .digests ∧
      ∀ key v, ((FixedDict.tryInsert key v).runOn d).2 = ((FixedDict.insert key v).runOn d).2) := by
  refine ⟨?_, ?_, ?_, ?_, ?_, ?_⟩
  · intro s t hs ht
    rw [hs.equal_iff ht hlawful hlawful']
    obtain ⟨c, m, hs⟩ := hs.keeps hlawful
    obtain ⟨c', m', ht⟩ := ht.keeps hlawful'
    exact ⟨fun hsame => hs.hashesAlike ht hlawful hlawful' hkeys hsame hash,
      fun key hagree => hs.hashesUpTo ht hlawful hlawful' hkeys hagree hash⟩
  · intro d e hd he
    rw [hd.equal_iff he hlawful hlawful']
    obtain ⟨c, m, hd⟩ := hd.keeps hlawful
    obtain ⟨c', m', he⟩ := he.keeps hlawful'
    exact ⟨fun hsame => hd.hashesAlike_of_agree he hlawful hlawful' hkeys hvalues hsame hash,
      fun key hagree => hd.hashesUpTo he hlawful hlawful' hkeys hagree hash⟩
  · intro s hs
    obtain ⟨room, m, hs⟩ := hs.exists_keeps hlawful
    exact hs.hashesFollow hkeys hash hlawful
  · intro d hd
    obtain ⟨beforehand, room, m, hd⟩ := hd.exists_keeps hlawful
    exact hd.hashesFollow hkeys hash hlawful
  · exact fun s => ⟨s.unorderedHash_eq_by, s.digestInto_eq_feedInto, fun key => s.runOn_tryInsert_state key⟩
  · exact fun d => ⟨d.unorderedHash_eq_by, d.digestInto_eq_feedInto, fun key v => d.runOn_tryInsert_state key v⟩

/-- A probed table and a growing dense one, filled in opposite orders under different hashers, hash alike. One more
entry makes the growing one move into a probed table, and its hash is restored when that entry is gone again. -/
theorem unorderedHash_extensional_across_moves :
    ∃ d e : AnyDict UInt64 UInt64,
      d.Reachable (fun seed key => seed - key) ∧ e.Reachable (fun seed key => seed ^^^ key) ∧
      d.storage.keys.slots.elements ≠ e.storage.keys.slots.elements ∧
      d.storage.HashesAlike Sip.hash e.storage ∧
      ∃ t, e.answer (.insert 40 1 : DictRequest UInt64 UInt64 Empty Empty) = (.ok (.value none), t) ∧
        e.storage.table.isDense = true ∧ t.storage.table.isDense = false ∧
        e.storage.HashesBy Sip.hash (fun seed => Sip.hash (bytes seed ++ bytes (40 : UInt64) ++ bytes (1 : UInt64)))
          t.storage ∧
        e.storage.HashesAlike Sip.hash
          (t.answer (.remove 40 : DictRequest UInt64 UInt64 Empty Empty)).2.storage := by
  have hlawful : Hasher.Lawful (fun seed (key : UInt64) => seed - key) := fun _ a b hab => by rw [eq_of_beq hab]
  have hlawful' : Hasher.Lawful (fun seed (key : UInt64) => seed ^^^ key) := fun _ a b hab => by rw [eq_of_beq hab]
  have hbytes : ∀ a b : UInt64, (a == b) = true → bytes a = bytes b := fun a b hab => by rw [eq_of_beq hab]
  have hnew : AnyDict.Reachable (V := UInt64) (fun seed (key : UInt64) => seed - key) (.fixed ⟨_, _⟩) :=
    .fixed (rfl : FixedDict.vacant 20 _ 3 = .ok _)
  have hd := hnew.callFixed (.extend ((List.range 14).map fun i => (i.toUInt64, 7)) :
    FixedDict.Call UInt64 UInt64 Empty Empty)
  have hnew' : AnyDict.Reachable (V := UInt64) (fun seed (key : UInt64) => seed ^^^ key)
      (.growing ⟨_, .constant 5, []⟩) := .growing (rfl : GrowDict.vacant 0 _ _ = .ok _)
  have he := hnew'.callGrowing (.extend ((List.range 14).map fun i => (13 - i.toUInt64, 7)) 0 :
    GrowDict.Call UInt64 UInt64 Empty Empty)
  have hpair := (unorderedHash_extensional (ε := Empty) (R := Empty) hlawful hlawful' hbytes hbytes Sip.hash).2.1
  have hfollow := (unorderedHash_extensional (V := UInt64) (ε := Empty) (R := Empty) hlawful' hlawful' hbytes hbytes
    Sip.hash).2.2.2.1 _ he
  have halike := (hpair _ _ hd he).1 (by decide +kernel)
  refine ⟨_, _, hd, he, by decide +kernel, halike, ?_⟩
  obtain ⟨t, ht, -, hby⟩ | ⟨fault, t, ht, -⟩ := hfollow.insert 40 1 (by decide +kernel)
  · have hundone := hfollow.undo (.insert 40 1) (.remove 40) 40 40 rfl rfl (by decide) (by decide +kernel)
      (by decide +kernel)
    rw [ht] at hundone
    refine ⟨t, ht, by decide +kernel, ?_, hby, hundone⟩
    rw [← show _ = t from congrArg Prod.snd ht]
    decide +kernel
  · have hrefused : _ = false := congrArg (fun answer => answer.1.toBool) ht
    exact absurd hrefused (by decide +kernel)

end RobinHood
