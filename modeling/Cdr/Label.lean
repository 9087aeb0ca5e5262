import Cdr.Power

/-! The labels that select the cases of a union: integers of sixty-four bits with a sign. -/

namespace Cdr

/-- A label of a union case. -/
abbrev Label := Int64

namespace Label

/-- The label of a number, if the number is in the range of labels. -/
def ofInt? (n : Int) : Option Label :=
  if -2 ^ 63 ≤ n ∧ n < 2 ^ 63 then some (Int64.ofInt n) else none

end Label

end Cdr
