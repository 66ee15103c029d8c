import RobinHood.Proofs.Equality
import RobinHood.Proofs.GrowDict
import RobinHood.Proofs.GrowSet

/-!
# Requests to containers of either kind

A container answers requests as its ledger does, with the room that its kind has.
-/

namespace RobinHood

open RobinHood.Ledger

variable {K V ε R : Type} [BEq K] [EquivBEq K] {hasher : Hasher K}

namespace AnySet

def answer (request : SetRequest K) : AnySet K → Except Fault (SetReply K) × AnySet K
  | .fixed s => ((FixedSet.answer request).runOn s).map id .fixed
  | .growing g => ((GrowSet.answer request).runOn g).map id .growing

def Keeps (hasher : Hasher K) (room : Room) : AnySet K → List K → Prop
  | .fixed s, m => FixedSet.Keeps hasher room.limit s m ∧ room.refusal = .setFull
  | .growing g, m => GrowSet.Keeps hasher g m ∧ room = Growable.room

variable {room : Room} {s : AnySet K} {m : List K}

theorem Keeps.storage (h : s.Keeps hasher room m) : ∃ c, FixedSet.Keeps hasher c s.storage m := by
  cases s with
  | fixed s => exact ⟨_, h.1⟩
  | growing g =>
    obtain ⟨⟨c, -, hkeeps⟩, -⟩ := h
    exact ⟨c, hkeeps⟩

theorem Keeps.answer (h : s.Keeps hasher room m) (hlawful : hasher.Lawful) (request : SetRequest K) :
    Alike (Keeps hasher room) (s.answer request) (answerSet room request m) := by
  obtain ⟨limit, refusal⟩ := room
  cases s with
  | fixed s =>
    obtain ⟨hkeeps, rfl⟩ := h
    obtain ⟨hsame, hafter⟩ := hkeeps.answer hlawful request
    exact ⟨hsame, hafter, rfl⟩
  | growing g =>
    obtain ⟨hkeeps, hroom⟩ := h
    obtain ⟨hsame, hafter⟩ := GrowSet.Keeps.answer hkeeps hlawful request
    rw [hroom]
    exact ⟨hsame, hafter, rfl⟩

theorem Reachable.exists_keeps (h : s.Reachable hasher) (hlawful : hasher.Lawful) :
    ∃ room m, s.Keeps hasher room m := by
  cases s with
  | fixed s =>
    obtain ⟨c, m, hkeeps⟩ := h.lawful hlawful
    exact ⟨⟨c, .setFull⟩, m, hkeeps, rfl⟩
  | growing g =>
    obtain ⟨m, hheld⟩ := h.lawful hlawful
    exact ⟨Growable.room, m, hheld, rfl⟩

end AnySet

namespace AnyDict

def answer (request : DictRequest K V ε R) : AnyDict K V → Except Fault (DictReply K V ε R) × AnyDict K V
  | .fixed d => ((FixedDict.answer request).runOn d).map id .fixed
  | .growing g => ((GrowDict.answer request).runOn g).map id .growing

/-- The dictionary holds the entries of the ledger, has so much room, and notices beforehand or not that there is
no more. -/
def Keeps (hasher : Hasher K) (beforehand : Bool) (room : Room) : AnyDict K V → List (K × V) → Prop
  | .fixed d, m => FixedDict.Keeps hasher room.limit d m ∧ room.refusal = .dictionaryFull ∧ beforehand = true
  | .growing g, m => GrowDict.Keeps hasher g m ∧ room = Growable.room ∧ beforehand = false

variable {beforehand : Bool} {room : Room} {d : AnyDict K V} {m : List (K × V)}

theorem Keeps.storage (h : d.Keeps hasher beforehand room m) : ∃ c, FixedDict.Keeps hasher c d.storage m := by
  cases d with
  | fixed d => exact ⟨_, h.1⟩
  | growing g =>
    obtain ⟨⟨c, -, hkeeps⟩, -⟩ := h
    exact ⟨c, hkeeps⟩

theorem Keeps.answer (h : d.Keeps hasher beforehand room m) (hlawful : hasher.Lawful)
    (request : DictRequest K V ε R) :
    Alike (Keeps hasher beforehand room) (d.answer request) (answerDict beforehand room request m) := by
  obtain ⟨limit, refusal⟩ := room
  cases d with
  | fixed d =>
    obtain ⟨hkeeps, rfl, rfl⟩ := h
    obtain ⟨hsame, hafter⟩ := hkeeps.answer hlawful request
    exact ⟨hsame, hafter, rfl, rfl⟩
  | growing g =>
    obtain ⟨hkeeps, hroom, rfl⟩ := h
    obtain ⟨hsame, hafter⟩ := GrowDict.Keeps.answer hkeeps hlawful request
    rw [hroom]
    exact ⟨hsame, hafter, rfl, rfl⟩

theorem Reachable.exists_keeps (h : d.Reachable hasher) (hlawful : hasher.Lawful) :
    ∃ beforehand room m, d.Keeps hasher beforehand room m := by
  cases d with
  | fixed d =>
    obtain ⟨c, m, hkeeps⟩ := h.keptBy (FixedDict.lawful hlawful)
    exact ⟨true, ⟨c, .dictionaryFull⟩, m, hkeeps, rfl, rfl⟩
  | growing g =>
    obtain ⟨m, hheld⟩ := h.keptBy (FixedDict.lawful hlawful)
    exact ⟨false, Growable.room, m, hheld, rfl, rfl⟩

end AnyDict

end RobinHood
