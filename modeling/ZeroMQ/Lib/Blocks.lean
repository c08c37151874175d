import Mathlib.Algebra.Order.Group.Nat
import Mathlib.Tactic.Common

/-!
# Blocks of a circular store

A circular store of `size` cells is cut into blocks of `block` cells each; the
last one is shorter if `block` does not divide `size`.  A stream runs through
the store round after round: the cell of position `x` of the stream is
`x % size`.  Positions are plain numbers that never wrap, so the blocks met on
the way are intervals of positions, one after the other.

## Main definitions

* `offset`, `base`, `bound` — the place of a position in its block, and the
  positions at which its block begins and ends.

## Main results

* `base_eq_of_mem` — the positions from `base x` to `bound x` are in one block.
* `bound_le_base` — blocks do not overlap.
* `index_eq_iff` — within one round, equal block numbers mean the same block.
-/

namespace ZeroMQ.Lib.Blocks

variable {size block x y n : Nat}

/-- The place of the position in its block. -/
def offset (size block x : Nat) : Nat := x % size % block

/-- The position at which the block of `x` begins. -/
def base (size block x : Nat) : Nat := x - offset size block x

/-- The number of cells from `x` to the end of its block. -/
def left (size block x : Nat) : Nat :=
  min (size - x % size) (block - offset size block x)

/-- The position at which the block of `x` ends. -/
def bound (size block x : Nat) : Nat := x + left size block x

theorem offset_le : offset size block x ≤ x :=
  (Nat.mod_le _ _).trans (Nat.mod_le _ _)

theorem base_le : base size block x ≤ x := Nat.sub_le _ _

theorem base_add_offset : base size block x + offset size block x = x :=
  Nat.sub_add_cancel offset_le

theorem base_mod : base size block x % size = x % size - offset size block x := by
  have hle : offset size block x ≤ x % size := Nat.mod_le _ _
  have hx : base size block x =
      (x % size - offset size block x) + size * (x / size) := by
    have := Nat.mod_add_div x size
    unfold base
    omega
  rw [hx, Nat.add_mul_mod_self_left]
  by_cases h0 : size = 0
  · subst h0
    rw [Nat.mod_zero]
  · apply Nat.mod_eq_of_lt
    have := Nat.mod_lt x (Nat.pos_of_ne_zero h0)
    omega

section

variable (hsize : 0 < size) (hblock : 0 < block)

include hsize hblock

theorem left_pos : 0 < left size block x := by
  have h1 := Nat.mod_lt x hsize
  have h2 : offset size block x < block := Nat.mod_lt _ hblock
  unfold left
  omega

theorem lt_bound : x < bound size block x :=
  Nat.lt_add_of_pos_right (left_pos hsize hblock)

omit hsize hblock in
/-- The cells of a block are next to each other. -/
theorem mod_add (h : n < left size block x) :
    (x + n) % size = x % size + n := by
  have hlt : x % size + n < size := by
    unfold left at h
    omega
  rw [← Nat.mod_add_mod, Nat.mod_eq_of_lt hlt]

omit hsize hblock in
theorem offset_add (h : n < left size block x) :
    offset size block (x + n) = offset size block x + n := by
  have hlt : offset size block x + n < block := by
    unfold left at h
    omega
  unfold offset at hlt ⊢
  rw [mod_add h, ← Nat.mod_add_mod, Nat.mod_eq_of_lt hlt]

omit hsize hblock in
theorem base_add (h : n < left size block x) :
    base size block (x + n) = base size block x := by
  have hle : offset size block x ≤ x := offset_le
  unfold base
  rw [offset_add h]
  omega

/-- A block begins where another one ends. -/
theorem offset_bound : offset size block (bound size block x) = 0 := by
  unfold bound
  rcases Nat.le_total (size - x % size) (block - offset size block x) with h | h
  · have hl : left size block x = size - x % size := Nat.min_eq_left h
    have hcell : (x + left size block x) % size = 0 := by
      rw [hl, ← Nat.mod_add_mod, Nat.add_sub_cancel' (Nat.mod_lt x hsize).le,
        Nat.mod_self]
    rw [offset, hcell, Nat.zero_mod]
  · have hl : left size block x = block - offset size block x :=
      Nat.min_eq_right h
    rcases Nat.lt_or_ge (left size block x) (size - x % size) with hlt | hge
    · have hcell : (x + left size block x) % size =
          x % size + left size block x := by
        rw [← Nat.mod_add_mod, Nat.mod_eq_of_lt (by omega)]
      have hoff : offset size block x < block := Nat.mod_lt _ hblock
      rw [offset, hcell, hl, ← Nat.mod_add_mod]
      change (offset size block x + (block - offset size block x)) % block = 0
      rw [Nat.add_sub_cancel' hoff.le, Nat.mod_self]
    · have hsum : x % size + left size block x = size := by
        have := Nat.mod_lt x hsize
        omega
      rw [offset, ← Nat.mod_add_mod, hsum, Nat.mod_self, Nat.zero_mod]

theorem base_bound :
    base size block (bound size block x) = bound size block x := by
  rw [base, offset_bound hsize hblock, Nat.sub_zero]

omit hsize hblock in
theorem offset_base : offset size block (base size block x) = 0 := by
  rw [offset, base_mod]
  exact Nat.mod_eq_zero_of_dvd (Nat.dvd_sub_mod _)

omit hsize hblock in
theorem base_base : base size block (base size block x) = base size block x := by
  rw [base, offset_base, Nat.sub_zero]

theorem left_base :
    left size block (base size block x) =
      offset size block x + left size block x := by
  have hle : offset size block x ≤ x % size := Nat.mod_le _ _
  have h1 := Nat.mod_lt x hsize
  have h2 : offset size block x < block := Nat.mod_lt _ hblock
  have hbase : base size block x % size = x % size - offset size block x :=
    base_mod
  have hoff : offset size block (base size block x) = 0 := offset_base
  rw [left, hbase, hoff, left]
  omega

theorem base_add_left :
    base size block x + left size block (base size block x) =
      bound size block x := by
  have hx : base size block x + offset size block x = x := base_add_offset
  rw [left_base hsize hblock, bound]
  omega

theorem base_eq_of_mem (h1 : base size block x ≤ y)
    (h2 : y < bound size block x) : base size block y = base size block x := by
  have hend := base_add_left hsize hblock (x := x)
  obtain ⟨k, rfl⟩ := Nat.exists_eq_add_of_le h1
  rw [base_add (by omega), base_base]

theorem bound_eq_of_base_eq (h : base size block x = base size block y) :
    bound size block x = bound size block y := by
  rw [← base_add_left hsize hblock (x := x), h, base_add_left hsize hblock]

/-- A position behind a block is in a later one. -/
theorem bound_le_base (h : bound size block x ≤ y) :
    bound size block x ≤ base size block y := by
  by_contra hlt
  have hmem : base size block (bound size block x) = base size block y :=
    base_eq_of_mem hsize hblock (by omega) (h.trans_lt (lt_bound hsize hblock))
  rw [base_bound hsize hblock] at hmem
  omega

/-- Two positions are in the same block or the block of the first ends before
that of the second. -/
theorem base_eq_or_bound_le (h : x ≤ y) :
    base size block x = base size block y ∨
      bound size block x ≤ base size block y := by
  rcases Nat.lt_or_ge y (bound size block x) with hlt | hge
  · exact .inl (base_eq_of_mem hsize hblock (base_le.trans h) hlt).symm
  · exact .inr (bound_le_base hsize hblock hge)

omit hsize hblock in
/-- Within one round positions have different cells. -/
theorem mod_ne (h1 : x < y) (h2 : y < x + size) : x % size ≠ y % size := by
  intro heq
  have hdvd : size ∣ y - x :=
    Nat.dvd_of_mod_eq_zero (Nat.sub_mod_eq_zero_of_mod_eq heq.symm)
  have hle := Nat.le_of_dvd (Nat.sub_pos_of_lt h1) hdvd
  omega

omit hsize in
/-- From the beginning of a block on, the same number within a round means the
same block. -/
theorem index_eq_iff (h0 : offset size block x = 0) (h1 : x ≤ y)
    (h2 : y < x + size) :
    x % size / block = y % size / block ↔ base size block y = x := by
  have hx : block * (x % size / block) = x % size := by
    have := Nat.mod_add_div (x % size) block
    rw [show x % size % block = 0 from h0] at this
    omega
  have hy := Nat.mod_add_div (y % size) block
  refine ⟨fun heq => ?_, fun hbase => ?_⟩
  · rw [heq] at hx
    obtain ⟨d, rfl⟩ := Nat.exists_eq_add_of_le h1
    rcases Nat.lt_or_ge (x % size + d) size with hlt | hge
    · have hcell : (x + d) % size = x % size + d := by
        rw [← Nat.mod_add_mod, Nat.mod_eq_of_lt hlt]
      rw [base, offset]
      omega
    · -- the cell of `y` is below that of `x`, and cannot have its number
      have hcell : (x + d) % size = x % size + d - size := by
        rw [← Nat.mod_add_mod, Nat.mod_eq_sub_mod hge, Nat.mod_eq_of_lt]
        have := Nat.mod_lt x (show 0 < size by omega)
        omega
      omega
  · have hmod : base size block y % size = y % size - offset size block y :=
      base_mod
    rw [hbase, offset] at hmod
    have hmul : block * (x % size / block) = block * (y % size / block) := by
      omega
    exact Nat.eq_of_mul_eq_mul_left hblock hmul

end

end ZeroMQ.Lib.Blocks
