import Mathlib.Data.List.Basic
import RobinHood.Proofs.Bitmap

/-!
# Bits keep what was written last

Bits are set and cleared one at a time, or cleared all at once. After any number of such writes to a new bitmap, a
bit reads as the last write to it left it, and the searches go by these readings. The spare bits of the last word are
never written, yet look like clear bits; no search answers one.
-/

namespace RobinHood.Bitmap

inductive Write where
  | set (i : Nat)
  | clear (i : Nat)
  | clearAll
  deriving DecidableEq

namespace Write

/-- The value that the bit at position `i` gets, if it is written. -/
def value? (i : Nat) : Write → Option Bool
  | .set j => if i = j then some true else none
  | .clear j => if i = j then some false else none
  | .clearAll => some false

/-- Only bits below `size` are written one at a time. -/
def InBounds (size : Nat) : Write → Prop
  | .set i | .clear i => i < size
  | .clearAll => True

instance (size : Nat) : DecidablePred (InBounds size)
  | .set i | .clear i => inferInstanceAs (Decidable (i < size))
  | .clearAll => inferInstanceAs (Decidable True)

end Write

def write (map : Bitmap) : Write → Except Fault Bitmap
  | .set i => map.set i
  | .clear i => map.clear i
  | .clearAll => .ok map.clearAll

/-- The last value written to the bit at position `i`. The bits of a new bitmap are clear. -/
def lastWritten (writes : List Write) (i : Nat) : Bool :=
  (writes.filterMap (Write.value? i)).getLastD false

variable {map : Bitmap} {size : Nat} {writes : List Write}

/-- A write changes the bits that it gives a value, and no others. -/
theorem write_of_inBounds {w : Write} (hw : w.InBounds map.size) :
    ∃ after, map.write w = .ok after ∧ after.size = map.size ∧ ∀ j, after.bit j = (w.value? j).getD (map.bit j) := by
  cases w with
  | set i =>
    obtain ⟨raised, hset, hsize, hbit⟩ := set_of_lt hw
    refine ⟨raised, hset, hsize, fun j => ?_⟩
    rw [hbit, Write.value?]
    split <;> rfl
  | clear i =>
    obtain ⟨lowered, hclear, hsize, hbit⟩ := clear_of_lt hw
    refine ⟨lowered, hclear, hsize, fun j => ?_⟩
    rw [hbit, Write.value?]
    split <;> rfl
  | clearAll => exact ⟨map.clearAll, rfl, rfl, bit_clearAll map⟩

/-- Bits that no write gives a value stay as they were. -/
theorem foldlM_write (hsize : map.size = size) (hwrites : ∀ w ∈ writes, w.InBounds size) :
    ∃ after, writes.foldlM write map = .ok after ∧ after.size = size ∧
      ∀ j, after.bit j = (writes.filterMap (Write.value? j)).getLastD (map.bit j) := by
  induction writes generalizing map with
  | nil => exact ⟨map, rfl, hsize, fun _ => rfl⟩
  | cons w writes ih =>
    obtain ⟨hw, hrest⟩ := List.forall_mem_cons.mp hwrites
    obtain ⟨next, hnext, hkept, hbit⟩ := write_of_inBounds (by rwa [hsize] : w.InBounds map.size)
    obtain ⟨after, hafter, hend, hlast⟩ := ih (hkept.trans hsize) hrest
    refine ⟨after, ?_, hend, fun j => ?_⟩
    · rw [List.foldlM_cons, hnext]
      exact hafter
    · rw [hlast, hbit, List.filterMap_cons]
      cases w.value? j with
      | none => rfl
      | some value => rw [Option.getD_some, List.getLastD_cons]

/-- Every bit reads as it was written last. From wherever they start, the searches find the first position that was
last set, or the first that was not. -/
theorem bits_as_last_written (hwrites : ∀ w ∈ writes, w.InBounds size) :
    ∃ map, writes.foldlM write (zeros size) = .ok map ∧ map.size = size ∧
      (∀ i < size, map.isSet i = .ok (lastWritten writes i)) ∧
      ∀ start, Least (lastWritten writes) start size (map.firstSetFrom start) ∧
        Least (fun i => !lastWritten writes i) start size (map.firstClearFrom start) := by
  obtain ⟨map, hrun, hsize, hlast⟩ := foldlM_write (size_zeros size) hwrites
  have hbit : map.bit = lastWritten writes := by
    funext i
    rw [hlast, bit_zeros, lastWritten]
  refine ⟨map, hrun, hsize, fun i hi => ?_, fun start => ⟨?_, ?_⟩⟩
  · rw [isSet_of_lt (by rwa [hsize]), hbit]
  · rw [← hbit, ← hsize]
    exact map.firstSetFrom_least start
  · rw [← hbit, ← hsize]
    exact map.firstClearFrom_least start

/-- All of 70 bits but one are set. The 58 spare bits of the last word look clear as well, but no search comes upon
them. -/
theorem bits_as_last_written_among_spare : ∃ (writes : List Write) (map : Bitmap),
    writes = [.set 69, .clearAll] ++ (List.range 70).map .set ++ [.clear 66] ∧
    (∀ w ∈ writes, w.InBounds 70) ∧ writes.foldlM write (zeros 70) = .ok map ∧
    map.words = #[0xFFFFFFFFFFFFFFFF, 0x3B] ∧ (∀ i < 70, map.isSet i = .ok (decide (i ≠ 66))) ∧
    (∀ start, Least (lastWritten writes) start 70 (map.firstSetFrom start) ∧
      Least (fun i => !lastWritten writes i) start 70 (map.firstClearFrom start)) ∧
    map.firstClearFrom 3 = some 66 ∧ map.firstClearFrom 67 = none := by
  have hwrites : ∀ w ∈ [.set 69, .clearAll] ++ (List.range 70).map Write.set ++ [Write.clear 66], w.InBounds 70 := by
    decide
  obtain ⟨map, hrun, -, hread, hsearch⟩ := bits_as_last_written hwrites
  have hlast : ∀ i < 70, lastWritten ([.set 69, .clearAll] ++ (List.range 70).map .set ++ [.clear 66]) i =
      decide (i ≠ 66) := by
    decide +kernel
  have hwords : List.foldlM write (zeros 70)
      ([.set 69, .clearAll] ++ (List.range 70).map .set ++ [.clear 66]) =
        .ok ⟨#[0xFFFFFFFFFFFFFFFF, 0x3B], 70, rfl⟩ := by
    decide +kernel
  obtain rfl := Except.ok.inj (hwords.symm.trans hrun)
  exact ⟨_, _, rfl, hwrites, hrun, rfl, fun i hi => by rw [hread i hi, hlast i hi], hsearch, by decide +kernel,
    by decide +kernel⟩

end RobinHood.Bitmap
