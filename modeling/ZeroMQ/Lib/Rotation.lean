import Mathlib.Algebra.Ring.Nat
import Mathlib.Data.List.Count
import Mathlib.Data.List.Nodup
import Mathlib.Data.List.Range
import ZeroMQ.Lib.Entries

/-!
# Searching a ring of cells from a rotating cursor

Round-robin schedulers have one shape: `n` cells stand in a ring, a search
starts at the cursor, tries cell after cell until one has an answer, and the
next search starts just past the cell that answered.  `cell x r x'` says what
trying a cell does to it, `r` being its answer.

`Scan` is one search and `Scan.found`, `Scan.missed_all` say where it stops.
`Waiting` follows one cell over many searches: a cell that no search passes
over is served before every other cell has been served once more.
`rotation` is the order in which cells are served when every cell answers.

Nothing here mentions a particular scheduler.
-/

namespace ZeroMQ.Lib

/-! ## Distances in a ring -/

/-- The number of steps from the cell `c` forward to the cell `q`. -/
def ringDist (n c q : Nat) : Nat := if c ≤ q then q - c else q + n - c

variable {n c q j : Nat}

theorem ring_mod (hc : c < n) (hj : j ≤ n) :
    (c + j) % n = if c + j < n then c + j else c + j - n := by
  by_cases hlt : c + j < n
  · rw [if_pos hlt, Nat.mod_eq_of_lt hlt]
  · rw [if_neg hlt, Nat.mod_eq_sub_mod (by omega),
      Nat.mod_eq_of_lt (by omega)]

/-- The cursor of a search wraps at the end of the ring. -/
theorem ring_next (hc : c < n) :
    (c + 1) % n = if c + 1 = n then 0 else c + 1 := by
  rw [ring_mod hc (by omega)]
  split <;> split <;> omega

theorem ringDist_lt (hc : c < n) (hq : q < n) : ringDist n c q < n := by
  unfold ringDist
  split <;> omega

theorem add_ringDist (hc : c < n) (hq : q < n) :
    (c + ringDist n c q) % n = q := by
  rw [ring_mod hc (ringDist_lt hc hq).le]
  unfold ringDist
  split <;> split <;> omega

theorem ringDist_add (hc : c < n) (hj : j < n) :
    ringDist n c ((c + j) % n) = j := by
  rw [ring_mod hc hj.le]
  unfold ringDist
  split <;> split <;> omega

theorem ring_around (hc : c < n) : (c + n) % n = c := by
  rw [Nat.add_mod_right, Nat.mod_eq_of_lt hc]

/-- A search that does not pass over `q` stops at `q` or comes closer to it. -/
theorem ringDist_turn (hc : c < n) (hq : q < n)
    (hle : j ≤ ringDist n c q) :
    (c + j) % n = q ∨
      ringDist n ((c + j + 1) % n) q + j + 1 = ringDist n c q := by
  have hlt := ringDist_lt hc hq
  rcases Nat.lt_or_eq_of_le hle with hj | hj
  · refine .inr ?_
    have hmod : (c + j + 1) % n =
        if c + (j + 1) < n then c + (j + 1) else c + (j + 1) - n := by
      rw [Nat.add_assoc, ring_mod hc (by omega)]
    rw [hmod]
    unfold ringDist at hj hlt ⊢
    split at hj <;> split <;> split <;> omega
  · exact .inl (by rw [hj, add_ringDist hc hq])

/-- Every cell but the first is one step closer to the next. -/
theorem ringDist_next (hc : c < n) (hq : q < n) (hne : q ≠ c) :
    ringDist n c q = ringDist n ((c + 1) % n) q + 1 := by
  rw [ring_next hc]
  unfold ringDist
  split <;> split <;> split <;> omega

/-- The first cell is the last one from the next. -/
theorem ringDist_next_self (hc : c < n) :
    ringDist n ((c + 1) % n) c = n - 1 := by
  rw [ring_next hc]
  unfold ringDist
  split <;> split <;> omega

theorem ring_prev (c : Nat) (hn : n ≠ 0) :
    ((c + 1) % n + n - 1) % n = c % n := by
  have hc : c % n < n := Nat.mod_lt c (by omega)
  rw [← Nat.mod_add_mod, ring_next hc]
  split
  · rw [Nat.mod_eq_of_lt (by omega)]
    omega
  · rw [show c % n + 1 + n - 1 = c % n + n by omega, ring_around hc]

/-! ## The cursor while the ring grows and shrinks -/

/-- A cursor of a ring of `n` cells; that of an empty ring is zero. -/
def RingIndex (n c : Nat) : Prop := c < n ∨ n = 0 ∧ c = 0

theorem RingIndex.lt (h : RingIndex n c) (hn : n ≠ 0) : c < n := by
  unfold RingIndex at h
  omega

theorem RingIndex.grow (h : RingIndex n c) : RingIndex (n + 1) c := by
  unfold RingIndex at h ⊢
  omega

/-- Any cell is removed, and a cursor beyond the last cell goes back to the
first. -/
theorem RingIndex.shrink (h : RingIndex (n + 1) c) :
    RingIndex n (if c = n then 0 else c) := by
  unfold RingIndex at h ⊢
  split <;> omega

theorem RingIndex.of_mod (c : Nat) (hn : n ≠ 0) : RingIndex n (c % n) :=
  .inl (Nat.mod_lt c (by omega))

/-! ## One search -/

section Scan

variable {P β : Type} (cell : P → Option β → P → Prop)

/-- The `j` cells from `c` on have been tried, each once, and none answered;
the others are as they were. -/
def Passed (j c : Nat) (s t : List P) : Prop :=
  t.length = s.length ∧ ∀ q < s.length,
    if ringDist s.length c q < j then
      ∃ x x', s[q]? = some x ∧ cell x none x' ∧ t[q]? = some x'
    else t[q]? = s[q]?

/-- `Scan k c s r p t`: a search of at most `k` cells from `c` on.  It stops
at the first cell `p` that answers; when none does, `p` is the cell behind
the last one tried. -/
inductive Scan : Nat → Nat → List P → Option β → Nat → List P → Prop where
  | done (c : Nat) (s : List P) : Scan 0 c s none c s
  | hit {k c : Nat} {s : List P} {x x' : P} {b : β} (hx : s[c]? = some x)
      (h : cell x (some b) x') : Scan (k + 1) c s (some b) c (s.set c x')
  | pass {k c p : Nat} {s t : List P} {x x' : P} {r : Option β}
      (hx : s[c]? = some x) (h : cell x none x')
      (rest : Scan k ((c + 1) % s.length) (s.set c x') r p t) :
      Scan (k + 1) c s r p t

variable {cell} {k p : Nat} {s t u : List P} {x x' : P} {r : Option β}

theorem Passed.nil (c : Nat) (s : List P) : Passed cell 0 c s s :=
  ⟨rfl, fun q _ => by simp⟩

theorem Passed.cons (hx : s[c]? = some x) (hcell : cell x none x')
    (hj : j < s.length)
    (h : Passed cell j ((c + 1) % s.length) (s.set c x') t) :
    Passed cell (j + 1) c s t := by
  obtain ⟨hlen, hcells⟩ := h
  rw [List.length_set] at hlen hcells
  have hc : c < s.length := (List.getElem?_eq_some_iff.mp hx).1
  refine ⟨hlen, fun q hq => ?_⟩
  have hget := hcells q hq
  by_cases hqc : q = c
  · subst hqc
    have h0 : ringDist s.length q q = 0 := by simp [ringDist]
    rw [ringDist_next_self hc, if_neg (by omega),
      List.getElem?_set_self hc] at hget
    rw [h0, if_pos (by omega)]
    exact ⟨x, x', hx, hcell, hget⟩
  · rw [List.getElem?_set_ne (Ne.symm hqc)] at hget
    rw [ringDist_next hc hq hqc]
    simpa using hget

theorem Passed.getElem?_of_le (h : Passed cell j c s t) (hq : q < s.length)
    (hle : j ≤ ringDist s.length c q) : t[q]? = s[q]? := by
  have := h.2 q hq
  rwa [if_neg (by omega)] at this

theorem Passed.tried (h : Passed cell j c s t) (hq : q < s.length)
    (hlt : ringDist s.length c q < j) :
    ∃ x x', s[q]? = some x ∧ cell x none x' ∧ t[q]? = some x' := by
  have := h.2 q hq
  rwa [if_pos hlt] at this

private theorem next_add (n c j : Nat) :
    ((c + 1) % n + j) % n = (c + (j + 1)) % n := by
  rw [Nat.mod_add_mod]
  congr 1
  omega

/-- A search that got an answer passed `j` cells and stopped at the next. -/
theorem Scan.found {b : β} (h : Scan cell k c s (some b) p t)
    (hk : k ≤ s.length) :
    ∃ j u x x', j < k ∧ p = (c + j) % s.length ∧ Passed cell j c s u ∧
      s[p]? = some x ∧ cell x (some b) x' ∧ t = u.set p x' := by
  generalize hr : some b = r at h
  induction h with
  | done c s => cases hr
  | @hit k c s x x' b' hx hcell =>
      cases hr
      have hc : c < s.length := (List.getElem?_eq_some_iff.mp hx).1
      exact ⟨0, s, x, x', by omega, by simp [Nat.mod_eq_of_lt hc], .nil c s,
        hx, hcell, rfl⟩
  | @pass k c p s t x x' r hx hcell rest ih =>
      have hc : c < s.length := (List.getElem?_eq_some_iff.mp hx).1
      rw [List.length_set] at ih
      obtain ⟨j, u, y, y', hj, hp, hpassed, hy, hcell', ht⟩ :=
        ih (by omega) hr
      rw [next_add] at hp
      refine ⟨j + 1, u, y, y', by omega, hp, hpassed.cons hx hcell (by omega),
        ?_, hcell', ht⟩
      have hne : c ≠ p := by
        intro heq
        have hd := ringDist_add hc (show j + 1 < s.length by omega)
        rw [← hp, ← heq] at hd
        simp [ringDist] at hd
      rwa [List.getElem?_set_ne hne] at hy

/-- A search that got an answer, cell by cell: the one that answered, `j` places
from where the search began, those before it, and the others. -/
theorem Scan.found_cells {b : β} (h : Scan cell k c s (some b) p t)
    (hk : k ≤ s.length) :
    ∃ j < k, p = (c + j) % s.length ∧
      (∃ x x', s[p]? = some x ∧ t[p]? = some x' ∧ cell x (some b) x') ∧
      ∀ q < s.length, q ≠ p → ∃ x x', s[q]? = some x ∧ t[q]? = some x' ∧
        if ringDist s.length c q < j then cell x none x' else x' = x := by
  obtain ⟨j, u, x, x', hj, hp, hpassed, hx, hcell, rfl⟩ := h.found hk
  have hlt : p < s.length := (List.getElem?_eq_some_iff.mp hx).1
  refine ⟨j, hj, hp, ⟨x, x', hx, ?_, hcell⟩, fun q hq hne => ?_⟩
  · rw [List.getElem?_set_self (by rw [hpassed.1]; exact hlt)]
  · rw [List.getElem?_set_ne (Ne.symm hne)]
    by_cases hd : ringDist s.length c q < j
    · obtain ⟨y, y', hy, hcell', hy'⟩ := hpassed.tried hq hd
      exact ⟨y, y', hy, hy', by rwa [if_pos hd]⟩
    · have hget : s[q]? = some s[q] := List.getElem?_eq_getElem hq
      refine ⟨s[q], s[q], hget, ?_, by rw [if_neg hd]⟩
      rw [hpassed.getElem?_of_le hq (by omega), hget]

/-- A search without an answer tried every cell it was allowed to. -/
theorem Scan.missed (h : Scan cell k c s none p t) (hc : c < s.length)
    (hk : k ≤ s.length) : Passed cell k c s t ∧ p = (c + k) % s.length := by
  generalize hr : none = r at h
  induction h with
  | done c s => exact ⟨.nil c s, by simp [Nat.mod_eq_of_lt hc]⟩
  | hit hx hcell => cases hr
  | @pass k c p s t x x' r hx hcell rest ih =>
      rw [List.length_set] at ih
      obtain ⟨hpassed, hp⟩ :=
        ih (Nat.mod_lt _ (by omega)) (by omega) hr
      exact ⟨hpassed.cons hx hcell (by omega), by rw [hp, next_add]⟩

/-- A search of the whole ring without an answer ends where it began, and
every cell has failed. -/
theorem Scan.missed_all (h : Scan cell s.length c s none p t)
    (hc : c < s.length) :
    p = c ∧ t.length = s.length ∧ ∀ q < s.length,
      ∃ x x', s[q]? = some x ∧ cell x none x' ∧ t[q]? = some x' := by
  obtain ⟨hpassed, hp⟩ := h.missed hc (Nat.le_refl _)
  rw [ring_around hc] at hp
  exact ⟨hp, hpassed.1, fun q hq => hpassed.tried hq (ringDist_lt hc hq)⟩

/-- What a tried cell keeps, every cell keeps in a search. -/
theorem Scan.forall_cells {I : P → Prop} (h : Scan cell k c s r p t)
    (hcell : ∀ x r x', I x → cell x r x' → I x') (h0 : ∀ x ∈ s, I x) :
    ∀ x ∈ t, I x := by
  induction h with
  | done c s => exact h0
  | hit hx hv =>
      exact forall_mem_set h0 (hcell _ _ _ (h0 _ (List.mem_of_getElem? hx)) hv)
  | pass hx hv rest ih =>
      apply ih
      exact forall_mem_set h0 (hcell _ _ _ (h0 _ (List.mem_of_getElem? hx)) hv)

/-- A measure that no cell raises when it is tried, and that an answer lowers,
is lowered by a search with an answer. -/
theorem Scan.measure_lt {I : P → Prop} {f : P → Nat}
    (h : Scan cell k c s r p t)
    (hcell : ∀ x r x', I x → cell x r x' →
      I x' ∧ f x' ≤ f x ∧ (r ≠ none → f x' < f x))
    (h0 : ∀ x ∈ s, I x) :
    (t.map f).sum ≤ (s.map f).sum ∧
      (r ≠ none → (t.map f).sum < (s.map f).sum) := by
  induction h with
  | done c s => exact ⟨Nat.le_refl _, fun hr => absurd rfl hr⟩
  | @hit k c s x x' b hx hv =>
      have hsum := sum_map_set f x' hx
      obtain ⟨-, -, hlt⟩ := hcell x _ x' (h0 x (List.mem_of_getElem? hx)) hv
      have := hlt (by simp)
      exact ⟨by omega, fun _ => by omega⟩
  | @pass k c p s t x x' r hx hv rest ih =>
      have hsum := sum_map_set f x' hx
      obtain ⟨hI, hle, -⟩ := hcell x _ x' (h0 x (List.mem_of_getElem? hx)) hv
      obtain ⟨ih1, ih2⟩ := ih (forall_mem_set h0 hI)
      exact ⟨by omega, fun hr => by have := ih2 hr; omega⟩

theorem Scan.length_eq (h : Scan cell k c s r p t) : t.length = s.length := by
  induction h with
  | done c s => rfl
  | hit hx hv => exact List.length_set
  | pass hx hv rest ih => rw [ih, List.length_set]

end Scan

/-! ## Many searches -/

/-- The cell `q` has been served since the cursor stood at `c₀`, or it has
come closer with every cell that was. -/
def Waiting (n q c₀ : Nat) (served : List Nat) (c : Nat) : Prop :=
  q ∈ served ∨ served.length + ringDist n c q ≤ ringDist n c₀ q

theorem Waiting.start (n q c : Nat) : Waiting n q c [] c :=
  .inr (by simp)

theorem Waiting.turn {c₀ : Nat} {served : List Nat}
    (h : Waiting n q c₀ served c) (hc : c < n) (hq : q < n)
    (hle : j ≤ ringDist n c q) :
    Waiting n q c₀ (served ++ [(c + j) % n]) ((c + j + 1) % n) := by
  rcases h with h | h
  · exact .inl (List.mem_append_left _ h)
  · rcases ringDist_turn hc hq hle with heq | hd
    · exact .inl (by simp [heq])
    · refine .inr ?_
      rw [List.length_append, List.length_singleton]
      omega

/-- After as many services as there are cells, `q` has been served. -/
theorem Waiting.served {c₀ : Nat} {served : List Nat}
    (h : Waiting n q c₀ served c) (hc : c₀ < n) (hq : q < n)
    (hlen : n ≤ served.length) : q ∈ served := by
  rcases h with h | h
  · exact h
  · have := ringDist_lt hc hq
    omega

/-- The cells served in `m` searches from `c` on when every cell answers. -/
def rotation (n c m : Nat) : List Nat :=
  (List.range m).map fun i => (c + i) % n

theorem rotation_succ (n c m : Nat) :
    rotation n c (m + 1) = rotation n c m ++ [(c + m) % n] := by
  simp [rotation, List.range_succ]

theorem rotation_add (n c m m' : Nat) :
    rotation n c (m + m') = rotation n c m ++ rotation n (c + m) m' := by
  simp [rotation, List.range_add, Nat.add_assoc]

/-- A turn of the ring serves every cell once. -/
theorem rotation_turn (n c : Nat) : (rotation n c n).Perm (List.range n) := by
  rcases Nat.eq_zero_or_pos n with rfl | hn
  · exact .refl _
  have hc : c % n < n := Nat.mod_lt c hn
  have hshift : rotation n c n = rotation n (c % n) n := by
    simp [rotation]
  have hnodup : (rotation n (c % n) n).Nodup := by
    refine List.Nodup.map_on ?_ List.nodup_range
    intro i hi i' hi' heq
    rw [List.mem_range] at hi hi'
    rw [← ringDist_add hc hi, heq, ringDist_add hc hi']
  rw [hshift, List.perm_ext_iff_of_nodup hnodup List.nodup_range]
  intro q
  rw [List.mem_range]
  constructor
  · intro hmem
    obtain ⟨i, -, rfl⟩ := List.mem_map.mp hmem
    exact Nat.mod_lt _ hn
  · intro hq
    refine List.mem_map.mpr ⟨ringDist n (c % n) q, ?_, add_ringDist hc hq⟩
    exact List.mem_range.mpr (ringDist_lt hc hq)

/-- `k` turns of the ring serve every cell `k` times. -/
theorem rotation_turns (n c k : Nat) :
    (rotation n c (k * n)).Perm (List.replicate k (List.range n)).flatten := by
  induction k with
  | zero => simp [rotation]
  | succ k ih =>
      rw [Nat.succ_mul, rotation_add, List.replicate_succ', List.flatten_concat]
      exact ih.append (rotation_turn n _)

private theorem filterMap_range {P : Type} (cells : List P) :
    ((List.range cells.length).filterMap fun i => cells[i]?) = cells := by
  induction cells with
  | nil => rfl
  | cons x xs ih =>
      rw [List.length_cons, List.range_succ_eq_map]
      simpa [List.filterMap_map, Function.comp_def] using ih

/-- The same, for the contents of the cells. -/
theorem rotation_turns_cells {P : Type} (cells : List P) (c k : Nat) :
    ((rotation cells.length c (k * cells.length)).filterMap
      fun i => cells[i]?).Perm (List.replicate k cells).flatten := by
  have hperm := (rotation_turns cells.length c k).filterMap
    fun i => cells[i]?
  rwa [List.filterMap_flatten, List.map_replicate, filterMap_range] at hperm

end ZeroMQ.Lib
