import Mathlib.Logic.Function.Basic

/-!
# Histories in numbered segments

A history is kept in segments that follow each other: everything is recorded in
the current segment, and a later one may be started at any time.

Nothing here mentions a particular system.
-/

namespace ZeroMQ.Lib

variable {α : Type} {f g : Nat → List α} {n m : Nat}

/-- The segments up to `n`, one after the other. -/
def history (f : Nat → List α) : Nat → List α
  | 0 => f 0
  | n + 1 => history f n ++ f (n + 1)

/-- Add `xs` to segment `n`. -/
def record (f : Nat → List α) (n : Nat) (xs : List α) : Nat → List α :=
  Function.update f n (f n ++ xs)

@[simp] theorem record_self (f : Nat → List α) (n : Nat) (xs : List α) :
    record f n xs n = f n ++ xs :=
  Function.update_self n _ f

theorem record_of_ne {k : Nat} (h : k ≠ n) (xs : List α) :
    record f n xs k = f k :=
  Function.update_of_ne h _ f

@[simp] theorem record_nil (f : Nat → List α) (n : Nat) :
    record f n [] = f := by
  unfold record
  rw [List.append_nil, Function.update_eq_self]

theorem prefix_record (f : Nat → List α) (n : Nat) (xs : List α) (k : Nat) :
    f k <+: record f n xs k := by
  by_cases hk : k = n
  · rw [hk, record_self]
    exact List.prefix_append _ _
  · simp only [record_of_ne hk, List.prefix_refl]

theorem history_record_of_lt {k : Nat} (h : k < n) (xs : List α) :
    history (record f n xs) k = history f k := by
  induction k with
  | zero => exact record_of_ne (Nat.ne_of_lt h) xs
  | succ k ih =>
      rw [history, history, ih (Nat.lt_of_succ_lt h),
        record_of_ne (Nat.ne_of_lt h)]

theorem history_record (f : Nat → List α) (n : Nat) (xs : List α) :
    history (record f n xs) n = history f n ++ xs := by
  cases n with
  | zero => exact record_self f 0 xs
  | succ n =>
      rw [history, history, history_record_of_lt (Nat.lt_succ_self n),
        record_self, List.append_assoc]

theorem history_of_empty (hle : n ≤ m) (h : ∀ k, n < k → f k = []) :
    history f m = history f n := by
  induction hle with
  | refl => rfl
  | @step m hle ih =>
      rw [history, h (m + 1) (Nat.lt_succ_of_le hle), List.append_nil, ih]

theorem history_prefix_of_le (hle : n ≤ m) : history f n <+: history f m := by
  induction hle with
  | refl => exact List.prefix_refl _
  | step _ ih =>
      rw [history]
      exact ih.trans (List.prefix_append _ _)

/-- Whatever is recorded anywhere is a part of the history. -/
theorem mem_history (hempty : ∀ k, n < k → f k = []) {k : Nat} {a : α}
    (ha : a ∈ f k) : a ∈ history f n := by
  have hle : k ≤ n := by
    apply Nat.le_of_not_lt
    intro hlt
    rw [hempty k hlt] at ha
    cases ha
  apply (history_prefix_of_le hle).subset
  cases k with
  | zero => exact ha
  | succ k => exact List.mem_append_right _ ha

theorem history_sublist (h : ∀ k, f k <+: g k) (n : Nat) :
    (history f n).Sublist (history g n) := by
  induction n with
  | zero => exact (h 0).sublist
  | succ n ih =>
      rw [history, history]
      exact ih.append (h (n + 1)).sublist

/-- Beginnings of the segments make up a part of the whole, however far each of
the two histories has got. -/
theorem history_sublist_of_empty (h : ∀ k, f k <+: g k)
    (hempty : ∀ k, m < k → g k = []) :
    (history f n).Sublist (history g m) := by
  have hsub := history_sublist h n
  rcases Nat.le_total n m with hle | hle
  · exact hsub.trans (history_prefix_of_le hle).sublist
  · rw [← history_of_empty hle hempty]
    exact hsub

end ZeroMQ.Lib
