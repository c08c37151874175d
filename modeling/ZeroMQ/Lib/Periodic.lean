/-!
# Reports of a counter that wraps

A counter counts `1, 2, 3, …` modulo a word size `W`, and the positions at
which its value is a multiple of a period `N` are reported.  As long as the
counter does not wrap, the reports are `N` apart.  At a wrap the value jumps
to zero, which is reported too, so that one interval is shorter, unless `N`
divides `W`.

## Main results

* `dueBetween_succ`, `dueBetween_eq_cons` — the reports due between two
  positions, as a queue: one more position, and the first report taken.
* `due_interval`, `due_interval_short` — how far the next report is.
-/

namespace ZeroMQ.Lib

/-- The counter is reported at position `k`. -/
def due (W N k : Nat) : Bool := k % W % N = 0

/-- The positions after `a`, up to `b`, at which the counter is reported. -/
def dueBetween (W N a b : Nat) : List Nat :=
  (List.range' (a + 1) (b - a)).filter (due W N)

variable {W N a b k : Nat}

theorem due_congr (h : a % W = b % W) : due W N a = due W N b := by
  rw [due, h, due]

theorem dueBetween_self : dueBetween W N a a = [] := by
  simp [dueBetween]

theorem dueBetween_succ (hab : a ≤ b) :
    dueBetween W N a (b + 1) =
      dueBetween W N a b ++ if due W N (b + 1) then [b + 1] else [] := by
  have hlen : b + 1 - a = b - a + 1 := by omega
  have hlast : a + 1 + 1 * (b - a) = b + 1 := by omega
  unfold dueBetween
  rw [hlen, List.range'_concat, List.filter_append, hlast]
  cases hd : due W N (b + 1) <;> simp [hd]

theorem mem_dueBetween {j : Nat} :
    j ∈ dueBetween W N a b ↔ (a < j ∧ j ≤ b) ∧ due W N j = true := by
  unfold dueBetween
  rw [List.mem_filter, List.mem_range'_1]
  constructor
  · rintro ⟨h, hd⟩
    exact ⟨by omega, hd⟩
  · rintro ⟨h, hd⟩
    exact ⟨by omega, hd⟩

theorem dueBetween_append (hak : a ≤ k) (hkb : k ≤ b) :
    dueBetween W N a b = dueBetween W N a k ++ dueBetween W N k b := by
  have hsplit : b - a = (k - a) + (b - k) := by omega
  have hmid : a + 1 + 1 * (k - a) = k + 1 := by omega
  unfold dueBetween
  rw [hsplit, ← List.range'_append, List.filter_append, hmid]

/-- The first report due: nothing is due before it, and the others are due
after it. -/
theorem dueBetween_eq_cons {rest : List Nat}
    (h : dueBetween W N a b = k :: rest) :
    a < k ∧ k ≤ b ∧ due W N k = true ∧
      (∀ j, a < j → j < k → due W N j = false) ∧
      rest = dueBetween W N k b := by
  have hk : k ∈ dueBetween W N a b := by simp [h]
  obtain ⟨⟨hak, hkb⟩, hdue⟩ := mem_dueBetween.mp hk
  -- The positions are listed in increasing order, so those before `k` would
  -- come first.
  have hsorted : (dueBetween W N a b).Pairwise (· < ·) :=
    List.Pairwise.filter _ List.pairwise_lt_range'
  rw [h, List.pairwise_cons] at hsorted
  have hbefore : ∀ j, a < j → j < k → due W N j = false := by
    intro j haj hjk
    cases hj : due W N j with
    | false => rfl
    | true =>
        have hmem : j ∈ dueBetween W N a b :=
          mem_dueBetween.mpr ⟨⟨haj, by omega⟩, hj⟩
        rw [h, List.mem_cons] at hmem
        rcases hmem with rfl | hmem
        · omega
        · have := hsorted.1 j hmem
          omega
  have hnil : dueBetween W N a (k - 1) = [] := by
    apply List.eq_nil_iff_forall_not_mem.mpr
    intro j hj
    obtain ⟨⟨haj, hjk⟩, hd⟩ := mem_dueBetween.mp hj
    rw [hbefore j haj (by omega)] at hd
    cases hd
  have hupto : dueBetween W N a k = [k] := by
    have hk1 : k - 1 + 1 = k := by omega
    rw [← hk1, dueBetween_succ (by omega), hnil, hk1, hdue]
    rfl
  refine ⟨hak, hkb, hdue, hbefore, ?_⟩
  rw [dueBetween_append (Nat.le_of_lt hak) hkb, hupto] at h
  simpa using h.symm

/-! ## The distance to the next report -/

section Distance

variable (hN : 0 < N) (hNW : N ≤ W) (hdue : due W N a = true)

/-- Short of the next wrap, the counter's value grows with the position. -/
theorem mod_of_no_wrap (hak : a ≤ k) (hlt : a % W + (k - a) < W) :
    k % W = a % W + (k - a) := by
  have hk : k = a + (k - a) := by omega
  conv => lhs; rw [hk]
  rw [Nat.add_mod, Nat.mod_eq_of_lt (show k - a < W by omega),
    Nat.mod_eq_of_lt hlt]

include hdue in
/-- Nothing is due less than a period after a report, short of the next
wrap. -/
theorem not_due_of_lt (hak : a < k) (hkN : k < a + N)
    (hlt : a % W + (k - a) < W) : due W N k = false := by
  have hdvd : N ∣ a % W := Nat.dvd_of_mod_eq_zero (of_decide_eq_true hdue)
  have hmod : k % W = a % W + (k - a) := mod_of_no_wrap (by omega) hlt
  unfold due
  apply decide_eq_false
  rw [hmod]
  intro h0
  have hsub : N ∣ k - a :=
    (Nat.dvd_add_right hdvd).mp (Nat.dvd_of_mod_eq_zero h0)
  have := Nat.le_of_dvd (by omega) hsub
  omega

include hN hdue in
/-- A period after a report the next is due, short of the next wrap. -/
theorem due_of_no_wrap (hlt : a % W + N < W) : due W N (a + N) = true := by
  have hdvd : N ∣ a % W := Nat.dvd_of_mod_eq_zero (of_decide_eq_true hdue)
  have hmod : (a + N) % W = a % W + N := by
    have h := mod_of_no_wrap (W := W) (Nat.le_add_right a N) (by omega)
    omega
  unfold due
  rw [hmod]
  exact decide_eq_true
    (Nat.mod_eq_zero_of_dvd (Nat.dvd_add hdvd (Nat.dvd_refl N)))

theorem due_of_wrap (hW : 0 < W) :
    (a + (W - a % W)) % W = 0 ∧ due W N (a + (W - a % W)) = true := by
  have hlt := Nat.mod_lt a hW
  have hdiv := Nat.div_add_mod a W
  have heq : a + (W - a % W) = W * (a / W + 1) := by
    rw [Nat.mul_add]
    omega
  have hmod : (a + (W - a % W)) % W = 0 := by
    rw [heq, Nat.mul_mod_right]
  refine ⟨hmod, ?_⟩
  unfold due
  rw [hmod]
  simp

include hN hNW in
theorem exists_due : ∃ k, a < k ∧ k ≤ a + N ∧ due W N k = true := by
  have hlt := Nat.mod_lt a (show 0 < W by omega)
  by_cases hwrap : a % W + N < W
  · have hrest := Nat.mod_lt (a % W) hN
    have hdiv := Nat.mod_add_div (a % W) N
    have hmod : (a + (N - a % W % N)) % W = a % W + (N - a % W % N) := by
      have h := mod_of_no_wrap (W := W)
        (Nat.le_add_right a (N - a % W % N)) (by omega)
      omega
    refine ⟨a + (N - a % W % N), by omega, by omega, ?_⟩
    unfold due
    apply decide_eq_true
    rw [hmod, show a % W + (N - a % W % N) = N * (a % W / N + 1) by
      rw [Nat.mul_add]
      omega]
    exact Nat.mul_mod_right _ _
  · exact ⟨a + (W - a % W), by omega, by omega,
      (due_of_wrap (by omega)).2⟩

include hN hNW in
theorem lt_of_dueBetween_eq_nil (h : dueBetween W N a b = []) :
    b < a + N := by
  obtain ⟨k, hak, hkN, hk⟩ := exists_due (a := a) hN hNW
  apply Nat.lt_of_not_le
  intro hle
  have hmem : k ∈ dueBetween W N a b :=
    mem_dueBetween.mpr ⟨⟨hak, by omega⟩, hk⟩
  simp [h] at hmem

include hN hNW hdue

variable (hak : a < k) (hk : due W N k = true)
  (hnone : ∀ j, a < j → j < k → due W N j = false)

include hak hk hnone

/-- The next report comes a full period later, or at the wrap. -/
theorem due_cases :
    (a % W + N < W ∧ k = a + N) ∨
      (W ≤ a % W + N ∧ k = a + (W - a % W) ∧ k % W = 0) := by
  have hlt := Nat.mod_lt a (show 0 < W by omega)
  obtain ⟨hwmod, hwdue⟩ := due_of_wrap (N := N) (a := a) (show 0 < W by omega)
  by_cases hwrap : a % W + N < W
  · left
    refine ⟨hwrap, ?_⟩
    have hle : k ≤ a + N := by
      apply Nat.le_of_not_lt
      intro hgt
      have hd := hnone (a + N) (by omega) hgt
      rw [due_of_no_wrap hN hdue hwrap] at hd
      cases hd
    apply Nat.le_antisymm hle
    apply Nat.le_of_not_lt
    intro hlt'
    rw [not_due_of_lt hdue hak hlt' (by omega)] at hk
    cases hk
  · right
    have hle : k ≤ a + (W - a % W) := by
      apply Nat.le_of_not_lt
      intro hgt
      have hd := hnone _ (by omega) hgt
      rw [hwdue] at hd
      cases hd
    have hge : a + (W - a % W) ≤ k := by
      apply Nat.le_of_not_lt
      intro hlt'
      rw [not_due_of_lt hdue hak (by omega) (by omega)] at hk
      cases hk
    have heq : k = a + (W - a % W) := Nat.le_antisymm hle hge
    exact ⟨by omega, heq, by rw [heq]; exact hwmod⟩

/-- Away from a wrap, or with a period that divides the word size, reports are
a full period apart. -/
theorem due_interval (hfull : k % W = 0 → N ∣ W) : k = a + N := by
  have hlt := Nat.mod_lt a (show 0 < W by omega)
  rcases due_cases hN hNW hdue hak hk hnone with ⟨_, h⟩ | ⟨hwrap, h, h0⟩
  · exact h
  · have hdvd : N ∣ a % W := Nat.dvd_of_mod_eq_zero (of_decide_eq_true hdue)
    have hsub : N ∣ W - a % W := Nat.dvd_sub (hfull h0) hdvd
    have := Nat.le_of_dvd (by omega) hsub
    omega

/-- At a wrap, with a period that does not divide the word size, the report
comes early. -/
theorem due_interval_short (h0 : k % W = 0) (hndvd : ¬ N ∣ W) :
    k < a + N := by
  have hlt := Nat.mod_lt a (show 0 < W by omega)
  have hdvd : N ∣ a % W := Nat.dvd_of_mod_eq_zero (of_decide_eq_true hdue)
  rcases due_cases hN hNW hdue hak hk hnone with ⟨hwrap, h⟩ | ⟨hwrap, h, _⟩
  · have hmod : k % W = a % W + (k - a) := mod_of_no_wrap (by omega) (by omega)
    omega
  · apply Nat.lt_of_le_of_ne (by omega)
    intro heq
    apply hndvd
    have hW : W = a % W + N := by omega
    rw [hW]
    exact Nat.dvd_add hdvd (Nat.dvd_refl N)

end Distance

end ZeroMQ.Lib
