import RobinHood.Text.DefaultIgnorable
import RobinHood.Text.ExtendingMark
import RobinHood.Text.Unprintable

/-!
# Quoted text

A text between double quotes, with the characters escaped that would end it, could not be seen,
or would run together with the character before them. Of those without a letter of their own the
code point is written in hexadecimal.
-/

namespace RobinHood.Text.Quoted

def hexadecimal (n : Nat) : String :=
  String.ofList (Nat.toDigits 16 n)

/-- Whether a character is written as it is: it is printed, is not ignored in display, and stands
apart from the one before it. -/
def isPlain (c : Char) : Bool :=
  !CodeRange.contains unprintable c.toNat && !CodeRange.contains defaultIgnorable c.toNat &&
    !CodeRange.contains extendingMarks c.toNat

/-- A character is written as it is exactly when no range of the three tables holds it. -/
theorem isPlain_eq_true_iff (c : Char) :
    isPlain c = true ↔
      ∀ range ∈ unprintable ++ defaultIgnorable ++ extendingMarks, ¬ range.Holds c.toNat := by
  simp only [isPlain, Bool.and_eq_true, Bool.not_eq_true',
    CodeRange.contains_eq_false_iff ascending_unprintable,
    CodeRange.contains_eq_false_iff ascending_defaultIgnorable,
    CodeRange.contains_eq_false_iff ascending_extendingMarks, List.forall_mem_append]

def escape (c : Char) : String :=
  match c with
  | '"' => "\\\""
  | '\\' => "\\\\"
  | '\n' => "\\n"
  | '\t' => "\\t"
  | '\r' => "\\r"
  | '\x00' => "\\0"
  | c => if isPlain c then c.toString else "\\u\x7b" ++ hexadecimal c.toNat ++ "\x7d"

def quote (s : String) : String :=
  "\"" ++ String.join (s.toList.map escape) ++ "\""

end RobinHood.Text.Quoted
