import Mathlib.Data.List.Basic

/-!
# The abstract queue

What a buffer is for, with nothing said about how: items go in at the back, a
number of items comes out at the front, never more than there are.
-/

namespace Fifo

variable {α : Type*}

/-- Add items at the back. -/
def push (q items : List α) : List α := q ++ items

/-- Remove the first `n` items, or all of them when there are fewer: what was
removed, and what is left. -/
def pop (q : List α) (n : Nat) : List α × List α := (q.take n, q.drop n)

/-- Asking for more than there is takes everything. -/
theorem pop_all {q : List α} {n : Nat} (h : q.length ≤ n) : pop q n = (q, []) := by
  rw [pop, List.take_of_length_le h, List.drop_of_length_le h]

end Fifo
