import Mathlib.Tactic.Common

/-!
# Binary search over an index predicate

`bisectLeft below n` is the textbook left bisection of `0..n`: it keeps two
ends `lo ≤ hi`, probes the middle and moves one of them. The probed sequence
need not be sorted: for every predicate the index before the result was probed
below (`bisectLeft_below_pred`).
-/

namespace Vllm.Library

/-- The bisection loop on the half-open range `lo..hi`, with `fuel` rounds left. -/
def bisectLoop (below : Nat → Bool) : Nat → Nat → Nat → Nat
  | 0, lo, _ => lo
  | fuel + 1, lo, hi =>
    if lo < hi then
      let mid := (lo + hi) / 2
      if below mid then bisectLoop below fuel (mid + 1) hi else bisectLoop below fuel lo mid
    else lo

/-- Left bisection of the range `0..n`. A round at least halves the range, so
`n` rounds are enough. -/
def bisectLeft (below : Nat → Bool) (n : Nat) : Nat :=
  bisectLoop below n 0 n

variable {below : Nat → Bool} {n : Nat} {fuel lo hi : Nat}

theorem bisectLoop_le (h : lo ≤ hi) : bisectLoop below fuel lo hi ≤ hi := by
  induction fuel generalizing lo hi with
  | zero => exact h
  | succ fuel ih =>
    simp only [bisectLoop]
    split
    · split
      · exact ih (by omega)
      · exact Nat.le_trans (ih (by omega)) (by omega)
    · exact h

/-- The loop keeps "`lo` is the start, or the index before it is below". -/
theorem bisectLoop_below_pred (hlo : lo = 0 ∨ below (lo - 1) = true) :
    bisectLoop below fuel lo hi = 0 ∨ below (bisectLoop below fuel lo hi - 1) = true := by
  induction fuel generalizing lo hi with
  | zero => exact hlo
  | succ fuel ih =>
    simp only [bisectLoop]
    split
    · split
      · rename_i hmid
        exact ih (.inr hmid)
      · exact ih hlo
    · exact hlo

theorem bisectLeft_le : bisectLeft below n ≤ n :=
  bisectLoop_le (Nat.zero_le n)

theorem bisectLeft_below_pred (h : 0 < bisectLeft below n) :
    below (bisectLeft below n - 1) = true :=
  (bisectLoop_below_pred (.inl rfl)).resolve_left (Nat.ne_of_gt h)

end Vllm.Library
