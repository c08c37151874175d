import Mathlib.Algebra.BigOperators.Group.List.Basic
import Mathlib.Combinatorics.Colex

/-!
# Sums of distinct powers of two

A word may hold a set of small numbers, the number `i` as the bit `2 ^ i`.
Adding a number to the set by `+` is as good as by `|||` as long as no number is
added twice: then the sum has just the bits of the numbers added.

Nothing here mentions a particular system.
-/

namespace ZeroMQ.Lib

/-- The sum of the bits of the numbers in the list. -/
def twoPowSum (l : List Nat) : Nat := (l.map (2 ^ ·)).sum

/-- The bitwise or of the bits of the numbers in the list. -/
def twoPowOr (l : List Nat) : Nat := (l.map (2 ^ ·)).foldl (· ||| ·) 0

variable {l : List Nat}

theorem twoPowSum_append_singleton (l : List Nat) (i : Nat) :
    twoPowSum (l ++ [i]) = twoPowSum l + 2 ^ i := by
  rw [twoPowSum, List.map_append, List.sum_append, List.map_singleton,
    List.sum_singleton, twoPowSum]

theorem twoPowSum_eq_sum (h : l.Nodup) :
    twoPowSum l = ∑ i ∈ l.toFinset, 2 ^ i :=
  (List.sum_toFinset (2 ^ ·) h).symm

theorem testBit_twoPowSum (h : l.Nodup) (i : Nat) :
    (twoPowSum l).testBit i = decide (i ∈ l) := by
  rw [Bool.eq_iff_iff, ← Nat.mem_bitIndices, ← List.mem_toFinset,
    twoPowSum_eq_sum h, Finset.toFinset_bitIndices_sum_two_pow,
    List.mem_toFinset, decide_eq_true_iff]

theorem testBit_twoPowOr (l : List Nat) (i : Nat) :
    (twoPowOr l).testBit i = decide (i ∈ l) := by
  have hfold : ∀ (l : List Nat) (acc : Nat),
      ((l.map (2 ^ ·)).foldl (· ||| ·) acc).testBit i =
        (acc.testBit i || decide (i ∈ l)) := by
    intro l
    induction l with
    | nil => simp
    | cons k l ih =>
        intro acc
        rw [List.map_cons, List.foldl_cons, ih, Nat.testBit_or,
          Nat.testBit_two_pow]
        simp [Bool.or_assoc, eq_comm]
  simpa [twoPowOr] using hfold l 0

/-- Distinct bits do not carry into each other. -/
theorem twoPowSum_eq_twoPowOr (h : l.Nodup) : twoPowSum l = twoPowOr l :=
  Nat.eq_of_testBit_eq fun i => by
    rw [testBit_twoPowSum h, testBit_twoPowOr]

theorem twoPowSum_lt {n : Nat} (h : l.Nodup) (hlt : ∀ i ∈ l, i < n) :
    twoPowSum l < 2 ^ n := by
  rw [twoPowSum_eq_sum h]
  exact Nat.geomSum_lt (Nat.le_refl 2)
    fun i hi => hlt i (List.mem_toFinset.mp hi)

end ZeroMQ.Lib
