/-!
# `ypipe_t`, with slots named by sequence number

`ypipe_t` (`libzmq/zmq/ypipe.hpp`) is the lock-free queue under every message
pipe and every command pipe.  Its three pointers `w`, `r` and `c` point into
the slots of a `yqueue_t`.  Here a slot is named by its sequence number: slot
`i` is the one the `i`-th `push` made the back of the queue, the terminator is
slot `back`, and `NULL` is `none`.  `ZeroMQ.Queue.YpipeMem` has the same
operations over the chunked memory of `yqueue_t` and shows that its pointers
compare as these numbers do.

Each operation of the class is cut at its accesses to `c`, the one word both
threads touch: `flush` is `unflushed`, `flushCas` and `flushSet`; `read` is
`prefetched`, `stopRead`, `fetch`, `load` and `pop`.  The systems built on the
pipe interleave these pieces.

## Main results

* `Proto` — the invariant of the sleep protocol: `c` is `NULL` or `w`, it is
  `NULL` only while the reader sleeps or has promised to, and a wake-up is due
  exactly when such a reader has something to read.
* `Proto.write`, `Proto.flushCas`, `Proto.flushSet`, `Proto.stopRead`,
  `Proto.fetch`, `Proto.pop`, `Proto.wake` — every piece keeps it.
* `Proto.all_read_of_asleep` — nothing flushed is unread when the reader sleeps
  and no wake-up is due.
-/

namespace ZeroMQ

/-- The members of `ypipe_t`.  `slots` holds the values stored so far, slot `i`
the `i`-th; the queue's contents are the slots from `front` on. -/
structure Ypipe (T : Type) where
  slots : List T
  front : Nat
  w : Nat
  r : Option Nat
  c : Option Nat
  stop : Bool
  deriving DecidableEq, Repr

namespace Ypipe

variable {T : Type}

/-- The terminator slot, `&queue.back ()`. -/
def back (y : Ypipe T) : Nat := y.slots.length

/-- The constructor: all pointers at the terminator, `c` at `NULL` when the
pipe is created dead. -/
def create (dead : Bool) : Ypipe T :=
  { slots := [], front := 0, w := 0, r := some 0,
    c := if dead then none else some 0, stop := false }

/-- `write`: fill the terminator slot and push a new terminator. -/
def write (y : Ypipe T) (value : T) : Ypipe T :=
  { y with slots := y.slots ++ [value] }

/-- `flush` has something to do: `w != &queue.back ()`. -/
def unflushed (y : Ypipe T) : Bool := y.w != y.back

/-- `c.cas (w, &queue.back ())` and, when it found `w`, the rest of `flush`.
The flag tells whether it did. -/
def flushCas (y : Ypipe T) : Bool × Ypipe T :=
  if y.c = some y.w then (true, { y with c := some y.back, w := y.back })
  else (false, y)

/-- `c.set (&queue.back ()); w = &queue.back (); return false`. -/
def flushSet (y : Ypipe T) : Ypipe T :=
  { y with c := some y.back, w := y.back }

/-- `&queue.front () != r`: a value was prefetched already. -/
def prefetched (y : Ypipe T) : Bool := some y.front != y.r

/-- The branch of `read` that declines a second prefetch. -/
def stopRead (y : Ypipe T) : Ypipe T := { y with stop := false }

/-- The prefetch: `r = c.xchg (NULL)` when `D`, `r = c.cas (&queue.front (),
NULL)` otherwise, and the test that follows it.  The flag is false when `read`
returns false. -/
def fetch (D : Bool) (y : Ypipe T) : Bool × Ypipe T :=
  if D then
    if some y.front = y.c ∨ y.c = none then
      (false, { y with r := y.c, c := none, stop := false })
    else (true, { y with r := y.c, c := none, stop := true })
  else
    let c' := if y.c = some y.front then none else y.c
    if some y.front = y.c ∨ y.c = none then
      (false, { y with r := y.c, c := c' })
    else (true, { y with r := y.c, c := c' })

/-- The value in the front slot; `none` is the contents of the terminator. -/
def load (y : Ypipe T) : Option T := y.slots[y.front]?

/-- `queue.pop ()`. -/
def pop (y : Ypipe T) : Ypipe T := { y with front := y.front + 1 }

@[simp] theorem back_write (y : Ypipe T) (v : T) :
    (y.write v).back = y.back + 1 := by
  simp [write, back]

@[simp] theorem back_pop (y : Ypipe T) : y.pop.back = y.back := rfl

@[simp] theorem slots_fetch (D : Bool) (y : Ypipe T) :
    (y.fetch D).2.slots = y.slots := by
  unfold fetch
  split
  · split <;> rfl
  · dsimp only
    split <;> rfl

@[simp] theorem front_fetch (D : Bool) (y : Ypipe T) :
    (y.fetch D).2.front = y.front := by
  unfold fetch
  split
  · split <;> rfl
  · dsimp only
    split <;> rfl

@[simp] theorem w_fetch (D : Bool) (y : Ypipe T) : (y.fetch D).2.w = y.w := by
  unfold fetch
  split
  · split <;> rfl
  · dsimp only
    split <;> rfl

theorem flushCas_of_eq {y : Ypipe T} (h : y.c = some y.w) :
    y.flushCas = (true, { y with c := some y.back, w := y.back }) := by
  simp [flushCas, h]

theorem flushCas_of_ne {y : Ypipe T} (h : y.c ≠ some y.w) :
    y.flushCas = (false, y) := by
  simp [flushCas, h]

/-! ## The sleep protocol -/

/-- The protocol invariant.  `asleep` says that the reader has been told there
is nothing to read and waits; `wakeups` counts the wake-ups owed to it: those
for a `flush` that returned false and not consumed yet. -/
structure Proto (D : Bool) (asleep : Prop) (wakeups : Nat) (y : Ypipe T) :
    Prop where
  rd : ∃ ri, y.r = some ri ∧ y.front ≤ ri ∧ ri ≤ y.w
  wBack : y.w ≤ y.back
  cEq : y.c = none ∨ y.c = some y.w
  drained : y.c = none → y.r = some y.w
  stopD : y.stop = true → D = true ∧ ¬ asleep
  sleepR : asleep → y.r = some y.front
  sleep : (asleep ∨ y.stop = true) ↔ (y.c = none ∨ wakeups = 1)
  wakeLe : wakeups ≤ 1
  wakeC : wakeups = 1 → y.c ≠ none

variable {D : Bool} {asleep : Prop} {wakeups : Nat} {y : Ypipe T}

/-- A new pipe follows the protocol, its reader asleep when it is dead. -/
theorem Proto.create (dead : Bool) :
    Proto D (dead = true) 0 (Ypipe.create dead : Ypipe T) where
  rd := ⟨0, rfl, Nat.le_refl _, Nat.le_refl _⟩
  wBack := Nat.le_refl _
  cEq := by cases dead <;> simp [Ypipe.create]
  drained := by simp [Ypipe.create]
  stopD := by simp [Ypipe.create]
  sleepR := by simp [Ypipe.create]
  sleep := by cases dead <;> simp [Ypipe.create]
  wakeLe := Nat.zero_le _
  wakeC := by simp

theorem Proto.front_le_w (h : Proto D asleep wakeups y) : y.front ≤ y.w := by
  obtain ⟨ri, _, h1, h2⟩ := h.rd
  exact Nat.le_trans h1 h2

theorem Proto.front_le_back (h : Proto D asleep wakeups y) :
    y.front ≤ y.back :=
  Nat.le_trans h.front_le_w h.wBack

theorem Proto.c_eq_w_iff (h : Proto D asleep wakeups y) :
    y.c = some y.w ↔ y.c ≠ none := by
  constructor
  · intro hc
    simp [hc]
  · intro hc
    exact h.cEq.resolve_left hc

/-- An awake reader that has not promised to sleep finds `c` set, and nobody
owes it a wake-up. -/
theorem Proto.c_of_awake (h : Proto D asleep wakeups y) (ha : ¬ asleep)
    (hs : y.stop = false) : y.c = some y.w ∧ wakeups = 0 := by
  have hnone : ¬ (y.c = none ∨ wakeups = 1) := by
    intro hc
    rcases h.sleep.mpr hc with h1 | h1
    · exact ha h1
    · simp [hs] at h1
  constructor
  · exact h.cEq.resolve_left fun hc => hnone (.inl hc)
  · have hne : wakeups ≠ 1 := fun hw => hnone (.inr hw)
    have := h.wakeLe
    omega

/-- Storing values beyond the terminator is invisible to the reader. -/
theorem Proto.append (h : Proto D asleep wakeups y) (vs : List T) :
    Proto D asleep wakeups { y with slots := y.slots ++ vs } := by
  have hback : y.w ≤ (y.slots ++ vs).length := by
    rw [List.length_append]
    exact Nat.le_trans h.wBack (Nat.le_add_right _ _)
  exact { h with wBack := hback }

theorem Proto.write (h : Proto D asleep wakeups y) (v : T) :
    Proto D asleep wakeups (y.write v) :=
  h.append [v]

/-- The protocol does not depend on how the sleeping reader is described. -/
theorem Proto.congr {asleep' : Prop} (h : Proto D asleep wakeups y)
    (hiff : asleep ↔ asleep') : Proto D asleep' wakeups y := by
  rw [← propext hiff]
  exact h

/-- A `cas` that finds `w` publishes the values written so far. -/
theorem Proto.flushCas (h : Proto D asleep wakeups y) (hc : y.c = some y.w) :
    Proto D asleep wakeups { y with c := some y.back, w := y.back } := by
  have hsleep := h.sleep
  obtain ⟨ri, hr, h1, h2⟩ := h.rd
  exact
    { rd := ⟨ri, hr, h1, Nat.le_trans h2 h.wBack⟩
      wBack := Nat.le_refl _
      cEq := .inr rfl
      drained := by simp
      stopD := h.stopD
      sleepR := h.sleepR
      sleep := by simpa [hc] using hsleep
      wakeLe := h.wakeLe
      wakeC := by simp }

/-- When `c` is `NULL` the reader sleeps or has promised to, and no wake-up is
under way. -/
theorem Proto.of_c_none (h : Proto D asleep wakeups y) (hc : y.c = none) :
    (asleep ∨ y.stop = true) ∧ wakeups = 0 := by
  refine ⟨h.sleep.mpr (.inl hc), ?_⟩
  have hne : wakeups ≠ 1 := fun hw => h.wakeC hw hc
  have := h.wakeLe
  omega

/-- After a `cas` that found `NULL` the plain store is safe; from then on one
wake-up is owed. -/
theorem Proto.flushSet (h : Proto D asleep wakeups y) (hc : y.c = none) :
    Proto D asleep 1 y.flushSet := by
  obtain ⟨hs, _⟩ := h.of_c_none hc
  obtain ⟨ri, hr, h1, h2⟩ := h.rd
  exact
    { rd := ⟨ri, hr, h1, Nat.le_trans h2 h.wBack⟩
      wBack := Nat.le_refl _
      cEq := .inr rfl
      drained := by simp [Ypipe.flushSet]
      stopD := h.stopD
      sleepR := h.sleepR
      sleep := by simpa [Ypipe.flushSet] using hs
      wakeLe := Nat.le_refl _
      wakeC := by simp [Ypipe.flushSet] }

/-- A reader that has used its one prefetch goes to sleep. -/
theorem Proto.stopRead (h : Proto D asleep wakeups y) (hs : y.stop = true)
    (hr : y.r = some y.front) : Proto D True wakeups y.stopRead :=
  { h with
    stopD := by simp [Ypipe.stopRead]
    sleepR := fun _ => hr
    sleep := by simpa [Ypipe.stopRead] using h.sleep.mp (.inr hs) }

/-- A prefetch that finds nothing puts the reader to sleep with `c` at `NULL`. -/
theorem Proto.fetch_false (h : Proto D asleep wakeups y) (ha : ¬ asleep)
    (hs : y.stop = false) (hf : (y.fetch D).1 = false) :
    Proto D True wakeups (y.fetch D).2 := by
  obtain ⟨hc, hw⟩ := h.c_of_awake ha hs
  have hfw : y.front = y.w := by
    cases D <;> by_cases hfront : y.front = y.w <;>
      simp_all [Ypipe.fetch]
  have hcf : y.c = some y.front := by rw [hc, hfw]
  have hback := h.wBack
  cases D <;> simp only [Ypipe.fetch, hcf, Bool.false_eq_true, if_true,
    if_false, true_or]
  · exact
      { rd := ⟨y.front, rfl, Nat.le_refl _, Nat.le_of_eq hfw⟩
        wBack := hback
        cEq := .inl rfl
        drained := fun _ => by simp [hfw]
        stopD := by simp [hs]
        sleepR := fun _ => rfl
        sleep := by simp
        wakeLe := h.wakeLe
        wakeC := by simp [hw] }
  · exact
      { rd := ⟨y.front, rfl, Nat.le_refl _, Nat.le_of_eq hfw⟩
        wBack := hback
        cEq := .inl rfl
        drained := fun _ => by simp [hfw]
        stopD := by simp
        sleepR := fun _ => rfl
        sleep := by simp
        wakeLe := h.wakeLe
        wakeC := by simp [hw] }

/-- A prefetch that finds something leaves it between `front` and `r`. -/
theorem Proto.fetch_true (h : Proto D asleep wakeups y) (ha : ¬ asleep)
    (hs : y.stop = false) (hf : (y.fetch D).1 = true) :
    Proto D asleep wakeups (y.fetch D).2 ∧ (y.fetch D).2.r = some y.w ∧
      y.front < y.w := by
  obtain ⟨hc, hw⟩ := h.c_of_awake ha hs
  have hne : y.front ≠ y.w := by
    cases D <;> intro hfront <;> simp_all [Ypipe.fetch]
  have hlt : y.front < y.w := Nat.lt_of_le_of_ne h.front_le_w hne
  have hback := h.wBack
  have hne' : ¬ y.w = y.front := fun he => hne he.symm
  cases D <;> simp only [Ypipe.fetch, hc, Option.some.injEq, hne, hne',
    Bool.false_eq_true, if_true, if_false, reduceCtorEq, or_self]
  · refine ⟨?_, trivial, hlt⟩
    exact
      { rd := ⟨y.w, rfl, Nat.le_of_lt hlt, Nat.le_refl _⟩
        wBack := hback
        cEq := .inr rfl
        drained := by simp
        stopD := by simp [hs]
        sleepR := fun hasleep => (ha hasleep).elim
        sleep := by simp [ha, hs, hw]
        wakeLe := h.wakeLe
        wakeC := by simp [hw] }
  · refine ⟨?_, trivial, hlt⟩
    exact
      { rd := ⟨y.w, rfl, Nat.le_of_lt hlt, Nat.le_refl _⟩
        wBack := hback
        cEq := .inl rfl
        drained := by simp
        stopD := by simp [ha]
        sleepR := fun hasleep => (ha hasleep).elim
        sleep := by simp
        wakeLe := h.wakeLe
        wakeC := by simp [hw] }

theorem Proto.pop (h : Proto D asleep wakeups y) (ha : ¬ asleep)
    (hp : y.r ≠ some y.front) : Proto D asleep wakeups y.pop := by
  obtain ⟨ri, hr, h1, h2⟩ := h.rd
  have hne : ri ≠ y.front := fun he => hp (by rw [hr, he])
  exact
    { h with
      rd := ⟨ri, hr, by simp only [Ypipe.pop]; omega, h2⟩
      sleepR := fun hasleep => (ha hasleep).elim }

theorem Proto.wake (h : Proto D asleep 1 y) (ha : asleep) :
    Proto D False 0 y := by
  have hstop : y.stop = false := by
    cases hs : y.stop with
    | false => rfl
    | true => exact ((h.stopD hs).2 ha).elim
  have hc := h.wakeC rfl
  exact
    { h with
      stopD := by simp [hstop]
      sleepR := fun hf => hf.elim
      sleep := by simp [hstop, hc]
      wakeLe := Nat.zero_le _
      wakeC := by simp }

/-- A prefetched value lies strictly below `w` and was stored. -/
theorem Proto.front_lt_of_prefetched (h : Proto D asleep wakeups y)
    (hp : y.r ≠ some y.front) : y.front < y.w := by
  obtain ⟨ri, hr, h1, h2⟩ := h.rd
  have hne : ri ≠ y.front := fun he => hp (by rw [hr, he])
  omega

/-- No lost wake-up: if the reader sleeps and no wake-up is owed to it, every
flushed value has been read. -/
theorem Proto.all_read_of_asleep (h : Proto D asleep 0 y) (ha : asleep) :
    y.front = y.w := by
  have hc : y.c = none := by
    rcases h.sleep.mp (.inl ha) with hc | hw
    · exact hc
    · omega
  have h1 := h.sleepR ha
  have h2 := h.drained hc
  rw [h1, Option.some.injEq] at h2
  exact h2

end Ypipe

end ZeroMQ
