import ZeroMQ.Lib.Entries

/-!
# Lazily counted references

A cell is shared by any number of references.  Counting is lazy: a reference
knows whether it may have company (`shared`), the counter of a cell with a
single unshared reference means nothing, and it is set when the reference is
first split.  `Exact` says that a table of counters agrees with a list of
references in this sense; there is one lemma for each way in which references
come and go.

References are listed in no particular order (`Exact.perm`), so a system can
collect them from wherever it stores them.

Nothing here mentions a particular system.

## Main results

* `Exact.alloc`, `Exact.splitSole`, `Exact.splitShared`, `Exact.dropSole`,
  `Exact.dropShared`, `Exact.dropLast` — every operation keeps the counters
  exact.
* `Exact.counter_eq` — the counter of a shared reference is the number of
  references.
-/

namespace ZeroMQ.Lib

/-- A reference, with its own view on whether it is the only one. -/
structure Ref (α : Type) where
  target : α
  shared : Bool
  deriving DecidableEq, Repr

variable {α : Type} [DecidableEq α]

/-- What the counter of `a` has to be: nothing refers to a cell that is not
there; the counter of a sole unshared reference is arbitrary; otherwise all
references are shared and the counter is their number. -/
inductive Counted (refs : List (Ref α)) (a : α) : Option Nat → Prop where
  | absent (hs : refs.count ⟨a, true⟩ = 0) (hu : refs.count ⟨a, false⟩ = 0) :
      Counted refs a none
  | sole (c : Nat) (hs : refs.count ⟨a, true⟩ = 0)
      (hu : refs.count ⟨a, false⟩ = 1) : Counted refs a (some c)
  | shared {c : Nat} (hs : refs.count ⟨a, true⟩ = c) (hpos : 0 < c)
      (hu : refs.count ⟨a, false⟩ = 0) : Counted refs a (some c)

/-- The table of counters `cell` is exact for the references `refs`. -/
def Exact (cell : α → Option Nat) (refs : List (Ref α)) : Prop :=
  ∀ a, Counted refs a (cell a)

variable {cell cell' : α → Option Nat} {refs refs' : List (Ref α)} {a : α}

theorem Counted.congr {c : Option Nat} (h : Counted refs a c)
    (hcount : ∀ b, refs'.count ⟨a, b⟩ = refs.count ⟨a, b⟩) :
    Counted refs' a c := by
  cases h with
  | absent hs hu => exact .absent (by rw [hcount, hs]) (by rw [hcount, hu])
  | sole c hs hu => exact .sole c (by rw [hcount, hs]) (by rw [hcount, hu])
  | shared hs hpos hu =>
      exact .shared (by rw [hcount, hs]) hpos (by rw [hcount, hu])

theorem Exact.perm (h : Exact cell refs) (hp : refs'.Perm refs) :
    Exact cell refs' :=
  fun a => (h a).congr fun _ => hp.count_eq _

/-- A change to the references and the counter of one cell. -/
theorem Exact.update (h : Exact cell refs)
    (hoff : ∀ b, b ≠ a → cell' b = cell b)
    (hcount : ∀ b, b ≠ a → ∀ s, refs'.count ⟨b, s⟩ = refs.count ⟨b, s⟩)
    (ha : Counted refs' a (cell' a)) : Exact cell' refs' := by
  intro b
  by_cases hb : b = a
  · subst hb
    exact ha
  · rw [hoff b hb]
    exact (h b).congr (hcount b hb)

theorem Exact.cell_of_mem (h : Exact cell refs) {b : Bool}
    (hm : (⟨a, b⟩ : Ref α) ∈ refs) : ∃ c, cell a = some c := by
  have hpos := List.count_pos_iff.mpr hm
  cases hc : cell a with
  | some c => exact ⟨c, rfl⟩
  | none =>
      have ha := h a
      rw [hc] at ha
      cases ha with
      | absent hs hu => cases b <;> omega

/-- The counter of a shared reference is the number of references. -/
theorem Exact.counter_eq (h : Exact cell refs) {c : Nat}
    (hm : (⟨a, true⟩ : Ref α) ∈ refs) (hc : cell a = some c) :
    refs.count ⟨a, true⟩ = c ∧ refs.count ⟨a, false⟩ = 0 := by
  have hpos := List.count_pos_iff.mpr hm
  have ha := h a
  rw [hc] at ha
  cases ha with
  | sole c hs hu => omega
  | shared hs _ hu => exact ⟨hs, hu⟩

theorem Exact.sole_of_mem (h : Exact cell refs)
    (hm : (⟨a, false⟩ : Ref α) ∈ refs) :
    refs.count ⟨a, false⟩ = 1 ∧ refs.count ⟨a, true⟩ = 0 := by
  have hpos := List.count_pos_iff.mpr hm
  obtain ⟨c, hc⟩ := h.cell_of_mem hm
  have ha := h a
  rw [hc] at ha
  cases ha with
  | sole c hs hu => exact ⟨hu, hs⟩
  | shared hs _ hu => omega

/-- A new cell has one unshared reference. -/
theorem Exact.alloc {c : Nat} (h : Exact cell refs) (ha : cell a = none)
    (hoff : ∀ b, b ≠ a → cell' b = cell b) (hnew : cell' a = some c) :
    Exact cell' (⟨a, false⟩ :: refs) := by
  refine h.update hoff ?_ ?_
  · intro b hb s
    simp [Ne.symm hb]
  · have hca := h a
    rw [ha] at hca
    rw [hnew]
    cases hca with
    | absent hs hu => exact .sole c (by simp [hs]) (by simp [hu])

/-- The only reference goes, and the cell with it. -/
theorem Exact.dropSole (h : Exact cell (⟨a, false⟩ :: refs))
    (hoff : ∀ b, b ≠ a → cell' b = cell b) (hnew : cell' a = none) :
    Exact cell' refs := by
  obtain ⟨hu, hs⟩ := h.sole_of_mem (a := a) (by simp)
  refine h.update hoff ?_ ?_
  · intro b hb s
    simp [Ne.symm hb]
  · rw [hnew]
    exact .absent (by simpa using hs) (by simpa using hu)

/-- The last of the shared references goes, and the cell with it. -/
theorem Exact.dropLast (h : Exact cell (⟨a, true⟩ :: refs))
    (hc : cell a = some 1) (hoff : ∀ b, b ≠ a → cell' b = cell b)
    (hnew : cell' a = none) : Exact cell' refs := by
  obtain ⟨hs, hu⟩ := h.counter_eq (by simp) hc
  refine h.update hoff ?_ ?_
  · intro b hb s
    simp [Ne.symm hb]
  · rw [hnew]
    exact .absent (by simpa using hs) (by simpa using hu)

theorem Exact.dropShared {c : Nat} (h : Exact cell (⟨a, true⟩ :: refs))
    (hc : cell a = some (c + 1)) (hpos : 0 < c)
    (hoff : ∀ b, b ≠ a → cell' b = cell b) (hnew : cell' a = some c) :
    Exact cell' refs := by
  obtain ⟨hs, hu⟩ := h.counter_eq (by simp) hc
  refine h.update hoff ?_ ?_
  · intro b hb s
    simp [Ne.symm hb]
  · rw [hnew]
    exact .shared (by simpa using hs) hpos (by simpa using hu)

/-- The only reference is split into `n` shared ones. -/
theorem Exact.splitSole {n : Nat} (h : Exact cell (⟨a, false⟩ :: refs))
    (hn : 0 < n) (hoff : ∀ b, b ≠ a → cell' b = cell b)
    (hnew : cell' a = some n) :
    Exact cell' (List.replicate n ⟨a, true⟩ ++ refs) := by
  obtain ⟨hu, hs⟩ := h.sole_of_mem (a := a) (by simp)
  refine h.update hoff ?_ ?_
  · intro b hb s
    simp [Ne.symm hb, List.count_replicate]
  · rw [hnew]
    refine .shared ?_ hn ?_
    · simpa [List.count_replicate] using hs
    · simpa [List.count_replicate] using hu

/-- A shared reference is split into `n + 1` shared ones. -/
theorem Exact.splitShared {c n : Nat} (h : Exact cell (⟨a, true⟩ :: refs))
    (hc : cell a = some c) (hoff : ∀ b, b ≠ a → cell' b = cell b)
    (hnew : cell' a = some (c + n)) :
    Exact cell' (List.replicate (n + 1) ⟨a, true⟩ ++ refs) := by
  obtain ⟨hs, hu⟩ := h.counter_eq (by simp) hc
  have hs' : refs.count ⟨a, true⟩ + 1 = c := by simpa using hs
  refine h.update hoff ?_ ?_
  · intro b hb s
    simp [Ne.symm hb, List.count_replicate]
  · rw [hnew]
    refine .shared ?_ (by omega) ?_
    · simp only [List.count_append, List.count_replicate_self]
      omega
    · simpa [List.count_replicate] using hu

/-- The references to one cell. -/
def refsTo (refs : List (Ref α)) (a : α) : List (Ref α) :=
  refs.filter fun r => r.target = a

theorem length_refsTo (refs : List (Ref α)) (a : α) :
    (refsTo refs a).length =
      refs.count ⟨a, true⟩ + refs.count ⟨a, false⟩ := by
  induction refs with
  | nil => rfl
  | cons r refs ih =>
      obtain ⟨b, shared⟩ := r
      unfold refsTo at ih ⊢
      by_cases hb : b = a
      · subst hb
        cases shared
        · simp [ih, Nat.add_assoc]
        · simp [ih, Nat.add_right_comm]
      · simp [hb, ih]

theorem count_pos_of_refsTo {r : Ref α} (hr : r ∈ refsTo refs a) :
    0 < refs.count ⟨a, r.shared⟩ := by
  obtain ⟨hmem, ha⟩ := List.mem_filter.mp hr
  have heq : r.target = a := by simpa using ha
  rw [← heq]
  exact List.count_pos_iff.mpr hmem

end ZeroMQ.Lib
