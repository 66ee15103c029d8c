/-!
# Ranges of code points

A property of characters is kept as a table of closed ranges, ascending and apart. The search
stops at the first range that starts past the code point, and on such a table it finds exactly the
code points of the ranges.
-/

namespace RobinHood.Text

/-- The code points from `first` to `last`, both of them included. -/
structure CodeRange where
  first : Nat
  last : Nat
  deriving DecidableEq, Repr

namespace CodeRange

def Holds (range : CodeRange) (code : Nat) : Prop :=
  range.first ≤ code ∧ code ≤ range.last

/-- Whether a code point lies in a range of an ascending table. -/
def contains : List CodeRange → Nat → Bool
  | [], _ => false
  | range :: rest, code =>
    range.first ≤ code && (code ≤ range.last || contains rest code)

/-- The ranges are not empty, and each ends before the next one starts. -/
def Ascending : List CodeRange → Prop
  | [] => True
  | [range] => range.first ≤ range.last
  | range :: next :: rest =>
    range.first ≤ range.last ∧ range.last < next.first ∧ Ascending (next :: rest)

instance decidableAscending : (table : List CodeRange) → Decidable (Ascending table)
  | [] => inferInstanceAs (Decidable True)
  | [range] => inferInstanceAs (Decidable (range.first ≤ range.last))
  | range :: next :: rest =>
    have : Decidable (Ascending (next :: rest)) := decidableAscending (next :: rest)
    inferInstanceAs (Decidable (range.first ≤ range.last ∧ range.last < next.first ∧ _))

/-- What follows the first range of an ascending table is ascending too. -/
theorem Ascending.tail {range : CodeRange} {rest : List CodeRange}
    (h : Ascending (range :: rest)) : Ascending rest := by
  cases rest with
  | nil => trivial
  | cons next rest => exact h.2.2

/-- The first range of an ascending table starts before all that follow. -/
theorem Ascending.first_le {range : CodeRange} {rest : List CodeRange}
    (h : Ascending (range :: rest)) {later : CodeRange} (hmem : later ∈ rest) :
    range.first ≤ later.first := by
  induction rest generalizing range with
  | nil => cases hmem
  | cons next rest ih =>
    have hnext : range.first ≤ next.first := by
      have := h.1
      have := h.2.1
      omega
    rcases List.mem_cons.mp hmem with rfl | hmem
    · exact hnext
    · exact Nat.le_trans hnext (ih h.tail hmem)

/-- The search finds exactly the code points of the ranges. -/
theorem contains_eq_true_iff {table : List CodeRange} (h : Ascending table) (code : Nat) :
    contains table code = true ↔ ∃ range ∈ table, range.Holds code := by
  induction table with
  | nil => simp [contains]
  | cons range rest ih =>
    simp only [contains, Bool.and_eq_true, Bool.or_eq_true, decide_eq_true_eq, ih h.tail,
      List.mem_cons, exists_eq_or_imp]
    constructor
    · rintro ⟨hfirst, hlast | hlater⟩
      · exact Or.inl ⟨hfirst, hlast⟩
      · exact Or.inr hlater
    · rintro (⟨hfirst, hlast⟩ | ⟨later, hmem, hheld⟩)
      · exact ⟨hfirst, Or.inl hlast⟩
      · exact ⟨Nat.le_trans (h.first_le hmem) hheld.1, Or.inr ⟨later, hmem, hheld⟩⟩

theorem contains_eq_false_iff {table : List CodeRange} (h : Ascending table) (code : Nat) :
    contains table code = false ↔ ∀ range ∈ table, ¬ range.Holds code := by
  rw [← Bool.not_eq_true, contains_eq_true_iff h]
  simp only [not_exists, not_and]

end CodeRange

end RobinHood.Text
