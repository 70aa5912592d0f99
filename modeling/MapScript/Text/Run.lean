import MapScript.Text.Basic

/-! Sets of characters as ascending runs of character numbers. -/

namespace MapScript

structure Run where
  first : Nat
  last : Nat
  step : Nat

namespace Run

def holds (r : Run) (n : Nat) : Bool :=
  r.first ≤ n && n ≤ r.last && (n - r.first) % r.step == 0

/-- Whether one of the runs, which are in ascending order, holds the number. -/
def cover : List Run → Nat → Bool
  | [], _ => false
  | r :: rest, n => if n < r.first then false else r.holds n || cover rest n

end Run

end MapScript
