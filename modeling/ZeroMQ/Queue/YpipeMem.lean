import ZeroMQ.Lib.Run
import ZeroMQ.Queue.Ypipe
import ZeroMQ.Queue.Yqueue

/-!
# `ypipe_t` over chunked memory, under every interleaving

`YpipeMem` is `ypipe_t` as the source has it: `w`, `r` and `c` are pointers
into the chunks of a `yqueue_t`, and the code decides everything by comparing
them.  `Sim` relates it to the pipe of `ZeroMQ.Queue.Ypipe`, whose pointers are
sequence numbers; it holds for every chunk size and every choice of addresses.

`Spsc` is the pipe with one writer thread and one reader thread.  A step of
either thread is one `atomic_ptr_t` operation, or one access to the queue,
together with the thread-local code after it.  After a `read` that returned
false the reader waits for a wake-up, and each `flush` that returned false
issues one.

## Main results

* `Sim.push`, `Sim.pop`, `Sim.fetch`, ... — pointers and sequence numbers run
  in step.
* `Inv.step` — the invariant of `Spsc`, one lemma for each step.
* `spsc_queue` — `ypipe_t` is a single-producer single-consumer queue.
-/

namespace ZeroMQ

open Lib

variable {dead : Bool} {fresh : Addr} {fresh' : Addr}

/-- The members of `ypipe_t`. -/
structure YpipeMem (T : Type) where
  queue : Yqueue T
  w : SlotPtr
  r : SlotPtr
  c : SlotPtr
  stop : Bool

namespace YpipeMem

variable {T : Type}

/-- The constructor: push the terminator and let the pointers point to it. -/
def create (N : Nat) (dead : Bool) (fresh fresh' : Addr) :
    Option (YpipeMem T) :=
  ((Yqueue.create fresh).push N fresh').map fun q =>
    { queue := q, w := q.back, r := q.back,
      c := if dead then none else q.back, stop := false }

/-- `c.set (&queue.back ()); w = &queue.back ()`. -/
def publish (m : YpipeMem T) : YpipeMem T :=
  { m with c := m.queue.back, w := m.queue.back }

/-- The prefetch of `read` and the test that follows it; the flag is false when
`read` returns false. -/
def fetch (D : Bool) (m : YpipeMem T) : Bool × YpipeMem T :=
  if D then
    -- r = c.xchg (NULL)
    if m.queue.front = m.c ∨ m.c = none then
      (false, { m with r := m.c, c := none, stop := false })
    else (true, { m with r := m.c, c := none, stop := true })
  else
    -- r = c.cas (&queue.front (), NULL)
    let c' := if m.c = m.queue.front then none else m.c
    if m.queue.front = m.c ∨ m.c = none then
      (false, { m with r := m.c, c := c' })
    else (true, { m with r := m.c, c := c' })

/-! ## Pointers and sequence numbers -/

/-- `m` is the pipe `y`, with slot `i` at address `slot N chunk i`. -/
structure Sim (N : Nat) (m : YpipeMem T) (y : Ypipe T) (chunk : Nat → Addr) :
    Prop where
  rep : Yqueue.Rep N m.queue y.front (y.back + 1) chunk
  w : m.w = Yqueue.slot N chunk y.w
  r : m.r = y.r.bind (Yqueue.slot N chunk)
  c : m.c = y.c.bind (Yqueue.slot N chunk)
  stop : m.stop = y.stop
  values : ∀ i, y.front ≤ i → i < y.back →
    m.queue.load (Yqueue.slot N chunk i) = y.slots[i]?

variable {N : Nat} {m m' : YpipeMem T} {y : Ypipe T} {chunk : Nat → Addr}
  {wakeups : Nat} {asleep : Prop} {D : Bool}

theorem Sim.front_eq (h : Sim N m y chunk) :
    m.queue.front = Yqueue.slot N chunk y.front :=
  h.rep.front_eq

theorem Sim.back_eq (h : Sim N m y chunk) :
    m.queue.back = Yqueue.slot N chunk y.back :=
  h.rep.back_eq (Nat.succ_pos _)

/-- Two pointers into the live part of the queue are equal exactly when their
sequence numbers are. -/
theorem Sim.slot_eq_iff (h : Sim N m y chunk) {i j : Nat}
    (hi : y.front ≤ i) (hi' : i ≤ y.back) (hj : y.front ≤ j)
    (hj' : j ≤ y.back) :
    Yqueue.slot N chunk i = Yqueue.slot N chunk j ↔ i = j := by
  constructor
  · exact h.rep.slot_inj hi (Nat.le_succ_of_le hi') hj (Nat.le_succ_of_le hj')
  · rintro rfl
    rfl

theorem Sim.create (hN : 0 < N) (h : create N dead fresh fresh' = some m) :
    ∃ chunk, Sim N m (Ypipe.create dead : Ypipe T) chunk := by
  simp only [YpipeMem.create, Option.map_eq_some_iff] at h
  obtain ⟨q, hq, rfl⟩ := h
  obtain ⟨chunk, hrep, _, _⟩ := (Yqueue.Rep.create fresh).push hN hq
  have hback : q.back = Yqueue.slot N chunk 0 := hrep.back_eq (Nat.succ_pos _)
  refine ⟨chunk, ?_⟩
  exact
    { rep := hrep
      w := hback
      r := hback
      c := by cases dead <;> simp [Ypipe.create, hback]
      stop := rfl
      values := fun i _ hi => by simp [Ypipe.create, Ypipe.back] at hi }

/-- Filling the terminator slot changes no value of the queue. -/
theorem Sim.store (h : Sim N m y chunk) (hfb : y.front ≤ y.back) (v : T) :
    Sim N { m with queue := m.queue.store m.queue.back v } y chunk ∧
      (m.queue.store m.queue.back v).load (Yqueue.slot N chunk y.back) =
        some v := by
  rw [h.back_eq]
  refine ⟨?_, h.rep.load_store_self hfb (Nat.le_succ _) v⟩
  exact
    { h with
      rep := h.rep.store (Yqueue.slot N chunk y.back) v
      values := fun i hi hib => by
        have := h.rep.load_store_ne hfb (Nat.le_succ _) hi
          (by omega : i ≤ y.back + 1) (by omega : i ≠ y.back) v
        rw [this]
        exact h.values i hi hib }

/-- Pushing a new terminator appends the value stored in the old one. -/
theorem Sim.push (h : Sim N m y chunk) (hp : Ypipe.Proto D asleep wakeups y)
    (hN : 0 < N) {v : T}
    (hv : m.queue.load (Yqueue.slot N chunk y.back) = some v) {q : Yqueue T}
    (hq : m.queue.push N fresh = some q) :
    ∃ chunk', Sim N { m with queue := q } (y.write v) chunk' := by
  obtain ⟨chunk', hrep, hslot, hload⟩ := h.rep.push hN hq
  have hfb := hp.front_le_back
  have hslot' : ∀ o : Option Nat, (∀ i, o = some i → i ≤ y.back) →
      o.bind (Yqueue.slot N chunk') = o.bind (Yqueue.slot N chunk) := by
    intro o ho
    cases o with
    | none => rfl
    | some i => exact hslot i (Nat.le_succ_of_le (ho i rfl))
  refine ⟨chunk', ?_⟩
  refine
    { rep := by rw [Ypipe.back_write]; exact hrep
      w := ?_
      r := ?_
      c := ?_
      stop := h.stop
      values := ?_ }
  · rw [h.w]
    exact (hslot y.w (Nat.le_succ_of_le hp.wBack)).symm
  · obtain ⟨ri, hr, _, hri⟩ := hp.rd
    refine h.r.trans (hslot' y.r ?_).symm
    intro i hi
    rw [hr, Option.some.injEq] at hi
    exact hi ▸ Nat.le_trans hri hp.wBack
  · refine h.c.trans (hslot' y.c ?_).symm
    intro i hi
    rcases hp.cEq with hc | hc
    · simp [hc] at hi
    · rw [hc, Option.some.injEq] at hi
      exact hi ▸ hp.wBack
  · intro i hi hib
    rw [Ypipe.back_write] at hib
    have hib' : i ≤ y.back := Nat.lt_succ_iff.mp hib
    rw [hslot i (Nat.le_succ_of_le hib'), hload i hi (Nat.le_succ_of_le hib')]
    by_cases hlast : i = y.back
    · subst hlast
      simpa [Ypipe.write, Ypipe.back] using hv
    · have hlt : i < y.back := Nat.lt_of_le_of_ne hib' hlast
      rw [h.values i hi hlt]
      exact (List.getElem?_append_left hlt).symm

theorem Sim.publish (h : Sim N m y chunk) :
    Sim N m.publish { y with c := some y.back, w := y.back } chunk :=
  { h with
    w := h.back_eq
    c := h.back_eq }

theorem Sim.c_eq_w_iff (h : Sim N m y chunk)
    (hp : Ypipe.Proto D asleep wakeups y) :
    m.c = m.w ↔ y.c = some y.w := by
  rw [h.c, h.w]
  rcases hp.cEq with hc | hc <;> simp [hc, Yqueue.slot]

theorem Sim.c_none_iff (h : Sim N m y chunk) : m.c = none ↔ y.c = none := by
  rw [h.c]
  cases y.c <;> simp [Yqueue.slot]

theorem Sim.front_eq_r_iff (h : Sim N m y chunk)
    (hp : Ypipe.Proto D asleep wakeups y) :
    m.queue.front = m.r ↔ y.r = some y.front := by
  obtain ⟨ri, hr, h1, h2⟩ := hp.rd
  rw [h.front_eq, h.r, hr]
  simp only [Option.bind_some, Option.some.injEq]
  rw [h.slot_eq_iff (Nat.le_refl _) hp.front_le_back h1
    (Nat.le_trans h2 hp.wBack)]
  exact eq_comm

theorem Sim.front_eq_c_iff (h : Sim N m y chunk)
    (hp : Ypipe.Proto D asleep wakeups y) :
    m.queue.front = m.c ↔ some y.front = y.c := by
  rw [h.front_eq, h.c]
  rcases hp.cEq with hc | hc
  · simp [hc, Yqueue.slot]
  · rw [hc]
    simp only [Option.bind_some, Option.some.injEq]
    exact h.slot_eq_iff (Nat.le_refl _) hp.front_le_back hp.front_le_w hp.wBack

theorem Sim.fetch (h : Sim N m y chunk) (hp : Ypipe.Proto D asleep wakeups y) :
    (m.fetch D).1 = (y.fetch D).1 ∧
      Sim N (m.fetch D).2 (y.fetch D).2 chunk := by
  have hfc := h.front_eq_c_iff hp
  have hcn := h.c_none_iff
  have hcf : m.c = m.queue.front ↔ y.c = some y.front := by
    rw [eq_comm, hfc, eq_comm]
  cases D with
  | true =>
      by_cases htest : some y.front = y.c ∨ y.c = none
      · have htest' : m.queue.front = m.c ∨ m.c = none :=
          htest.imp hfc.mpr hcn.mpr
        simp only [YpipeMem.fetch, Ypipe.fetch, htest, htest', if_true, true_and]
        exact { h with r := h.c, c := rfl, stop := rfl }
      · have htest' : ¬ (m.queue.front = m.c ∨ m.c = none) := fun ht =>
          htest (ht.imp hfc.mp hcn.mp)
        simp only [YpipeMem.fetch, Ypipe.fetch, htest, htest', if_true,
          if_false, true_and]
        exact { h with r := h.c, c := rfl, stop := rfl }
  | false =>
      have hc' : (if m.c = m.queue.front then none else m.c) =
          (if y.c = some y.front then none else y.c).bind
            (Yqueue.slot N chunk) := by
        by_cases heq : y.c = some y.front
        · simp [heq, hcf.mpr heq]
        · have hne : ¬ m.c = m.queue.front := fun ht => heq (hcf.mp ht)
          simp only [heq, hne, if_false]
          exact h.c
      by_cases htest : some y.front = y.c ∨ y.c = none
      · have htest' : m.queue.front = m.c ∨ m.c = none :=
          htest.imp hfc.mpr hcn.mpr
        simp only [YpipeMem.fetch, Ypipe.fetch, htest, htest', if_true,
          Bool.false_eq_true, if_false, true_and]
        exact { h with r := h.c, c := hc' }
      · have htest' : ¬ (m.queue.front = m.c ∨ m.c = none) := fun ht =>
          htest (ht.imp hfc.mp hcn.mp)
        simp only [YpipeMem.fetch, Ypipe.fetch, htest, htest',
          Bool.false_eq_true, if_false, true_and]
        exact { h with r := h.c, c := hc' }

theorem Sim.load (h : Sim N m y chunk) (hlt : y.front < y.back) :
    m.queue.load m.queue.front = y.load := by
  rw [h.front_eq]
  exact h.values y.front (Nat.le_refl _) hlt

theorem Sim.pop (h : Sim N m y chunk) (hN : 0 < N) (hlt : y.front < y.back) :
    Sim N { m with queue := m.queue.pop N } y.pop chunk ∧
      (m.queue.pop N).load (Yqueue.slot N chunk y.back) =
        m.queue.load (Yqueue.slot N chunk y.back) := by
  obtain ⟨hrep, hload⟩ := h.rep.pop hN (Nat.lt_succ_of_lt hlt)
  refine ⟨?_, hload y.back hlt (Nat.le_succ _)⟩
  exact
    { h with
      rep := hrep
      values := fun i hi hib => by
        rw [Ypipe.back_pop] at hib
        have hi' : y.front + 1 ≤ i := hi
        rw [hload i hi' (by omega)]
        exact h.values i (by omega) hib }

end YpipeMem

/-! ## One writer, one reader -/

/-- Where the writer thread is: between calls, inside `write` before `push`,
inside `flush` before the `cas`, or before the plain store after a failed
one. -/
inductive WriterPc (T : Type) where
  | idle
  | push (v : T)
  | cas
  | set

/-- Where the reader thread is: between calls, before the prefetch, before the
value is copied, or before `pop` with the copied value. -/
inductive ReaderPc (T : Type) where
  | idle
  | fetch
  | copy
  | pop (v : Option T)

/-- A step of one of the threads, with the choices of its environment. -/
inductive SpscAct (T : Type) where
  | write (v : T)
  | push (fresh : Addr)
  | flush
  | cas
  | set
  | read
  | fetch
  | copy
  | pop
  | wake

/-- The pipe, its two threads and the wake-ups in flight.  `written`,
`flushed` and `returned` record the history: the values written, how many of
them were written before the last completed `flush`, and the values returned
by `read`, `none` standing for the contents of a slot never written. -/
structure Spsc (T : Type) where
  pipe : YpipeMem T
  writer : WriterPc T
  reader : ReaderPc T
  asleep : Bool
  wakeups : Nat
  written : List T
  flushed : Nat
  returned : List (Option T)

namespace Spsc

variable {T : Type}

/-- Both threads between calls on a new pipe; the reader of a dead pipe waits
for its first wake-up. -/
def start (dead : Bool) (pipe : YpipeMem T) : Spsc T :=
  { pipe := pipe, writer := .idle, reader := .idle, asleep := dead,
    wakeups := 0, written := [], flushed := 0, returned := [] }

/-- The steps of the two threads. -/
def step (N : Nat) (D : Bool) (s : Spsc T) : SpscAct T → Option (Spsc T)
  | .write v =>
      match s.writer with
      | .idle => some { s with
          pipe := { s.pipe with
            queue := s.pipe.queue.store s.pipe.queue.back v }
          writer := .push v }
      | _ => none
  | .push fresh =>
      match s.writer with
      | .push v => (s.pipe.queue.push N fresh).map fun q =>
          { s with
            pipe := { s.pipe with queue := q }
            writer := .idle, written := s.written ++ [v] }
      | _ => none
  | .flush =>
      match s.writer with
      | .idle =>
          if s.pipe.w = s.pipe.queue.back then
            some { s with flushed := s.written.length }
          else some { s with writer := .cas }
      | _ => none
  | .cas =>
      match s.writer with
      | .cas =>
          if s.pipe.c = s.pipe.w then
            some { s with
              pipe := s.pipe.publish, writer := .idle
              flushed := s.written.length }
          else some { s with writer := .set }
      | _ => none
  | .set =>
      match s.writer with
      | .set => some { s with
          pipe := s.pipe.publish, writer := .idle
          flushed := s.written.length, wakeups := s.wakeups + 1 }
      | _ => none
  | .read =>
      match s.reader with
      | .idle =>
          if s.asleep then none
          else if s.pipe.queue.front ≠ s.pipe.r then
            some { s with reader := .copy }
          else if D ∧ s.pipe.stop then
            some { s with
              pipe := { s.pipe with stop := false }, asleep := true }
          else some { s with reader := .fetch }
      | _ => none
  | .fetch =>
      match s.reader with
      | .fetch =>
          if (s.pipe.fetch D).1 then
            some { s with pipe := (s.pipe.fetch D).2, reader := .copy }
          else some { s with
            pipe := (s.pipe.fetch D).2, reader := .idle, asleep := true }
      | _ => none
  | .copy =>
      match s.reader with
      | .copy => some { s with
          reader := .pop (s.pipe.queue.load s.pipe.queue.front) }
      | _ => none
  | .pop =>
      match s.reader with
      | .pop v => some { s with
          pipe := { s.pipe with queue := s.pipe.queue.pop N }
          reader := .idle, returned := s.returned ++ [v] }
      | _ => none
  | .wake =>
      match s.reader with
      | .idle =>
          if s.asleep ∧ 0 < s.wakeups then
            some { s with asleep := false, wakeups := s.wakeups - 1 }
          else none
      | _ => none

/-- The invariant of the two threads over the pipe `y` that the memory holds. -/
structure Inv (N : Nat) (D : Bool) (s : Spsc T) (y : Ypipe T)
    (chunk : Nat → Addr) : Prop where
  sim : s.pipe.Sim N y chunk
  proto : Ypipe.Proto D (s.asleep = true) s.wakeups y
  written : s.written = y.slots
  flushed : s.flushed = y.w
  returned : s.returned = (y.slots.take y.front).map some
  pushing : ∀ v, s.writer = .push v →
    s.pipe.queue.load (Yqueue.slot N chunk y.back) = some v
  setting : s.writer = .set → y.c = none
  fetching : s.reader = .fetch →
    s.asleep = false ∧ y.stop = false ∧ y.r = some y.front
  copying : s.reader = .copy → s.asleep = false ∧ y.r ≠ some y.front
  popping : ∀ v, s.reader = .pop v →
    s.asleep = false ∧ y.r ≠ some y.front ∧ v = y.load

variable {N : Nat} {D : Bool} {s s' : Spsc T} {y : Ypipe T}
  {chunk : Nat → Addr}

theorem Inv.start {m : YpipeMem T} (hN : 0 < N)
    (h : YpipeMem.create N dead fresh fresh' = some m) :
    ∃ y chunk, Inv N D (start dead m) y chunk := by
  obtain ⟨chunk, hsim⟩ := YpipeMem.Sim.create hN h
  refine ⟨Ypipe.create dead, chunk, ?_⟩
  exact
    { sim := hsim
      proto := Ypipe.Proto.create dead
      written := rfl
      flushed := rfl
      returned := rfl
      pushing := by simp [Spsc.start]
      setting := by simp [Spsc.start]
      fetching := by simp [Spsc.start]
      copying := by simp [Spsc.start]
      popping := by simp [Spsc.start] }

theorem Inv.write (h : Inv N D s y chunk) {v : T}
    (hs : s.step N D (.write v) = some s') :
    ∃ y' chunk', Inv N D s' y' chunk' := by
  cases hw : s.writer <;> simp only [step, hw, Option.some.injEq,
    reduceCtorEq] at hs
  obtain ⟨hsim, hload⟩ := h.sim.store h.proto.front_le_back v
  subst hs
  refine ⟨y, chunk, ?_⟩
  exact
    { h with
      sim := hsim
      pushing := fun v' hv' => by
        rw [WriterPc.push.injEq] at hv'
        rw [← hv']
        exact hload
      setting := by simp }

theorem Inv.push (h : Inv N D s y chunk) (hN : 0 < N)
    (hs : s.step N D (.push fresh) = some s') :
    ∃ y' chunk', Inv N D s' y' chunk' := by
  cases hw : s.writer <;> simp only [step, hw, Option.map_eq_some_iff,
    reduceCtorEq] at hs
  rename_i v
  obtain ⟨q, hq, rfl⟩ := hs
  obtain ⟨chunk', hsim⟩ := h.sim.push h.proto hN (h.pushing v hw) hq
  have hfb := h.proto.front_le_back
  refine ⟨y.write v, chunk', ?_⟩
  exact
    { h with
      sim := hsim
      proto := h.proto.write v
      written := by rw [h.written]; rfl
      returned := by
        rw [h.returned]
        exact congrArg _ (List.take_append_of_le_length hfb).symm
      pushing := by simp
      setting := by simp
      popping := fun v' hv' => by
        obtain ⟨ha, hr, hv⟩ := h.popping v' hv'
        refine ⟨ha, hr, ?_⟩
        have hlt := h.proto.front_lt_of_prefetched hr
        have hlt' := Nat.lt_of_lt_of_le hlt h.proto.wBack
        rw [hv]
        exact (List.getElem?_append_left hlt').symm }

theorem Inv.flush (h : Inv N D s y chunk)
    (hs : s.step N D .flush = some s') :
    ∃ y' chunk', Inv N D s' y' chunk' := by
  cases hw : s.writer <;> simp only [step, hw, reduceCtorEq] at hs
  by_cases hwb : s.pipe.w = s.pipe.queue.back
  · rw [if_pos hwb, Option.some.injEq] at hs
    have hback : y.w = y.back := by
      rw [h.sim.w, h.sim.back_eq] at hwb
      exact (h.sim.slot_eq_iff h.proto.front_le_w h.proto.wBack
        h.proto.front_le_back (Nat.le_refl _)).mp hwb
    have hflushed : s.written.length = y.w := by
      rw [h.written, hback]
      rfl
    subst hs
    exact ⟨y, chunk, { h with
      flushed := hflushed, pushing := by simp, setting := by simp }⟩
  · rw [if_neg hwb, Option.some.injEq] at hs
    subst hs
    exact ⟨y, chunk, { h with pushing := by simp, setting := by simp }⟩

/-- Publishing moves `w` to the terminator; what the reader holds on to is
unchanged. -/
private theorem Inv.publish (h : Inv N D s y chunk) {wakeups : Nat}
    (hproto : Ypipe.Proto D (s.asleep = true) wakeups
      { y with c := some y.back, w := y.back }) :
    Inv N D { s with
      pipe := s.pipe.publish, writer := .idle
      flushed := s.written.length, wakeups := wakeups }
      { y with c := some y.back, w := y.back } chunk :=
  { h with
    sim := h.sim.publish
    proto := hproto
    flushed := by rw [h.written]; rfl
    pushing := by simp
    setting := by simp }

theorem Inv.cas (h : Inv N D s y chunk) (hs : s.step N D .cas = some s') :
    ∃ y' chunk', Inv N D s' y' chunk' := by
  cases hw : s.writer <;> simp only [step, hw, reduceCtorEq] at hs
  by_cases hc : s.pipe.c = s.pipe.w
  · rw [if_pos hc, Option.some.injEq] at hs
    subst hs
    exact ⟨_, chunk, h.publish
      (h.proto.flushCas ((h.sim.c_eq_w_iff h.proto).mp hc))⟩
  · rw [if_neg hc, Option.some.injEq] at hs
    have hnone : y.c = none := by
      rcases h.proto.cEq with hn | hn
      · exact hn
      · exact absurd ((h.sim.c_eq_w_iff h.proto).mpr hn) hc
    subst hs
    exact ⟨y, chunk, { h with pushing := by simp, setting := fun _ => hnone }⟩

theorem Inv.set (h : Inv N D s y chunk) (hs : s.step N D .set = some s') :
    ∃ y' chunk', Inv N D s' y' chunk' := by
  cases hw : s.writer <;> simp only [step, hw, Option.some.injEq,
    reduceCtorEq] at hs
  have hnone := h.setting hw
  have hzero := (h.proto.of_c_none hnone).2
  have hpub := h.publish (h.proto.flushSet hnone)
  rw [hzero] at hs
  subst hs
  exact ⟨_, chunk, hpub⟩

theorem Inv.read (h : Inv N D s y chunk) (hs : s.step N D .read = some s') :
    ∃ y' chunk', Inv N D s' y' chunk' := by
  cases hr : s.reader <;> simp only [step, hr, reduceCtorEq] at hs
  have hfr := h.sim.front_eq_r_iff h.proto
  cases ha : s.asleep with
  | true => simp [ha] at hs
  | false =>
      have hproto := h.proto
      rw [ha] at hproto
      simp only [ha, Bool.false_eq_true, if_false] at hs
      by_cases hp : s.pipe.queue.front = s.pipe.r
      · have hr' : y.r = some y.front := hfr.mp hp
        simp only [hp, ne_eq, not_true_eq_false, if_false] at hs
        by_cases hstop : D = true ∧ s.pipe.stop = true
        · -- the one prefetch of a drain has been used up
          rw [if_pos hstop, Option.some.injEq] at hs
          have hstop' : y.stop = true := by rw [← h.sim.stop]; exact hstop.2
          have hsleep := hproto.stopRead hstop' hr'
          subst hs
          refine ⟨y.stopRead, chunk, ?_⟩
          exact
            { h with
              sim := { h.sim with stop := rfl }
              proto := by simpa using hsleep
              fetching := by simp
              copying := by simp
              popping := by simp }
        · rw [if_neg hstop, Option.some.injEq] at hs
          have hstop' : y.stop = false := by
            cases hst : y.stop with
            | false => rfl
            | true =>
                exact absurd ⟨(h.proto.stopD hst).1, by rw [h.sim.stop, hst]⟩
                  hstop
          subst hs
          refine ⟨y, chunk, ?_⟩
          exact
            { h with
              proto := hproto
              fetching := fun _ => ⟨rfl, hstop', hr'⟩
              copying := by simp
              popping := by simp }
      · simp only [ne_eq, hp, not_false_eq_true, if_true,
          Option.some.injEq] at hs
        subst hs
        refine ⟨y, chunk, ?_⟩
        exact
          { h with
            proto := hproto
            fetching := by simp
            copying := fun _ => ⟨rfl, fun hr' => hp (hfr.mpr hr')⟩
            popping := by simp }

theorem Inv.fetch (h : Inv N D s y chunk) (hs : s.step N D .fetch = some s') :
    ∃ y' chunk', Inv N D s' y' chunk' := by
  cases hr : s.reader <;> simp only [step, hr, reduceCtorEq] at hs
  obtain ⟨ha, hstop, _⟩ := h.fetching hr
  have ha' : ¬ s.asleep = true := by simp [ha]
  obtain ⟨hflag, hsim⟩ := h.sim.fetch h.proto
  have hslots : (y.fetch D).2.slots = y.slots ∧
      (y.fetch D).2.front = y.front ∧ (y.fetch D).2.w = y.w := by
    cases D <;> simp only [Ypipe.fetch, Bool.false_eq_true, if_true,
      if_false] <;> split <;> simp
  obtain ⟨h1, h2, h3⟩ := hslots
  have hback : (y.fetch D).2.back = y.back := by simp [Ypipe.back]
  have hload : ∀ v, s.writer = .push v →
      (s.pipe.fetch D).2.queue.load
        (Yqueue.slot N chunk (y.fetch D).2.back) = some v := by
    intro v hv
    have hq : (s.pipe.fetch D).2.queue = s.pipe.queue := by
      cases D <;> simp only [YpipeMem.fetch, Bool.false_eq_true, if_true,
        if_false] <;> split <;> rfl
    rw [hq, hback]
    exact h.pushing v hv
  -- at a pending plain store `c` is `NULL` and the reader cannot be here
  have hset : s.writer ≠ .set := by
    intro hw
    have hc := (h.proto.c_of_awake ha' hstop).1
    rw [h.setting hw] at hc
    simp at hc
  cases hf : (y.fetch D).1 with
  | true =>
      rw [hflag, hf, if_pos rfl, Option.some.injEq] at hs
      obtain ⟨hproto, hr', hlt⟩ := h.proto.fetch_true ha' hstop hf
      subst hs
      refine ⟨(y.fetch D).2, chunk, ?_⟩
      exact
        { sim := hsim
          proto := hproto
          written := by rw [h1]; exact h.written
          flushed := by rw [h3]; exact h.flushed
          returned := by rw [h1, h2]; exact h.returned
          pushing := hload
          setting := fun hw => absurd hw hset
          fetching := by simp
          copying := fun _ => ⟨ha, by
            rw [hr', h2]
            simp only [ne_eq, Option.some.injEq]
            omega⟩
          popping := by simp }
  | false =>
      rw [hflag, hf, if_neg (by simp), Option.some.injEq] at hs
      have hproto := h.proto.fetch_false ha' hstop hf
      subst hs
      refine ⟨(y.fetch D).2, chunk, ?_⟩
      exact
        { sim := hsim
          proto := by simpa using hproto
          written := by rw [h1]; exact h.written
          flushed := by rw [h3]; exact h.flushed
          returned := by rw [h1, h2]; exact h.returned
          pushing := hload
          setting := fun hw => absurd hw hset
          fetching := by simp
          copying := by simp
          popping := by simp }

theorem Inv.copy (h : Inv N D s y chunk) (hs : s.step N D .copy = some s') :
    ∃ y' chunk', Inv N D s' y' chunk' := by
  cases hr : s.reader <;> simp only [step, hr, Option.some.injEq,
    reduceCtorEq] at hs
  obtain ⟨ha, hr'⟩ := h.copying hr
  have hlt := Nat.lt_of_lt_of_le (h.proto.front_lt_of_prefetched hr')
    h.proto.wBack
  subst hs
  refine ⟨y, chunk, ?_⟩
  exact
    { h with
      fetching := by simp
      copying := by simp
      popping := fun v hv => by
        rw [ReaderPc.pop.injEq] at hv
        exact ⟨ha, hr', by rw [← hv]; exact h.sim.load hlt⟩ }

theorem Inv.pop (h : Inv N D s y chunk) (hN : 0 < N)
    (hs : s.step N D .pop = some s') :
    ∃ y' chunk', Inv N D s' y' chunk' := by
  cases hr : s.reader <;> simp only [step, hr, Option.some.injEq,
    reduceCtorEq] at hs
  rename_i v
  obtain ⟨ha, hr', hv⟩ := h.popping v hr
  have hlt := Nat.lt_of_lt_of_le (h.proto.front_lt_of_prefetched hr')
    h.proto.wBack
  obtain ⟨hsim, hload⟩ := h.sim.pop hN hlt
  subst hs
  refine ⟨y.pop, chunk, ?_⟩
  exact
    { h with
      sim := hsim
      proto := h.proto.pop (by simp [ha]) hr'
      returned := by
        obtain ⟨x, hget⟩ : ∃ x, y.slots[y.front]? = some x :=
          ⟨_, List.getElem?_eq_getElem hlt⟩
        rw [h.returned, hv]
        simp only [Ypipe.pop, Ypipe.load, List.take_add_one, hget,
          Option.toList_some, List.map_append, List.map_cons, List.map_nil]
      pushing := fun v' hv' => by
        rw [Ypipe.back_pop, hload]
        exact h.pushing v' hv'
      fetching := by simp
      copying := by simp
      popping := by simp }

theorem Inv.wake (h : Inv N D s y chunk) (hs : s.step N D .wake = some s') :
    ∃ y' chunk', Inv N D s' y' chunk' := by
  cases hr : s.reader <;> simp only [step, hr, reduceCtorEq] at hs
  by_cases hw : s.asleep = true ∧ 0 < s.wakeups
  · rw [if_pos hw, Option.some.injEq] at hs
    have hone : s.wakeups = 1 := by
      have := h.proto.wakeLe
      omega
    have hproto := h.proto
    rw [hone] at hproto
    have hproto' := hproto.wake hw.1
    subst hs
    refine ⟨y, chunk, ?_⟩
    exact
      { h with
        proto := by simpa [hone] using hproto'
        fetching := by simp
        copying := by simp
        popping := by simp }
  · simp [hw] at hs

theorem Inv.step (h : Inv N D s y chunk) (hN : 0 < N) {a : SpscAct T}
    (hs : s.step N D a = some s') : ∃ y' chunk', Inv N D s' y' chunk' := by
  cases a with
  | write v => exact h.write hs
  | push fresh => exact h.push hN hs
  | flush => exact h.flush hs
  | cas => exact h.cas hs
  | set => exact h.set hs
  | read => exact h.read hs
  | fetch => exact h.fetch hs
  | copy => exact h.copy hs
  | pop => exact h.pop hN hs
  | wake => exact h.wake hs

theorem Inv.run {m : YpipeMem T} (hN : 0 < N)
    (hm : YpipeMem.create N dead fresh fresh' = some m) {as : List (SpscAct T)}
    (h : Run (Spsc.step N D) Any (Spsc.start dead m) as s) :
    ∃ y chunk, Inv N D s y chunk := by
  refine h.invariant (I := fun s => ∃ y chunk, Inv N D s y chunk) ?_
    (Inv.start hN hm)
  rintro t a t' ⟨y, chunk, hinv⟩ _ hs
  exact hinv.step hN hs

/-! ## What the pipe guarantees -/

/-- The reader waits for a wake-up, or has used the one prefetch it makes
between two wake-ups and will return false before it looks at `c` again. -/
def Committed (D : Bool) (s : Spsc T) : Prop :=
  s.asleep = true ∨ (D = true ∧ s.pipe.stop = true)

/-- A flush that found `c` at `NULL` has not stored it yet, or the wake-up it
issued has not been consumed. -/
def FlushOwed (s : Spsc T) : Prop :=
  s.writer = .set ∨ 0 < s.wakeups

theorem Inv.committed (h : Inv N D s y chunk) (hc : s.pipe.c = none) :
    Committed D s := by
  have hy : y.c = none := h.sim.c_none_iff.mp hc
  rcases (h.proto.of_c_none hy).1 with ha | hstop
  · exact .inl ha
  · exact .inr ⟨(h.proto.stopD hstop).1, by rw [h.sim.stop]; exact hstop⟩

/-- While a flush is owed, the reader is not about to touch `c`. -/
theorem Inv.not_fetching (h : Inv N D s y chunk) (ho : FlushOwed s) :
    s.reader ≠ .fetch := by
  intro hr
  obtain ⟨ha, hstop, _⟩ := h.fetching hr
  obtain ⟨hc, hzero⟩ := h.proto.c_of_awake (by simp [ha]) hstop
  rcases ho with hw | hw
  · rw [h.setting hw] at hc
    simp at hc
  · omega

/-- Only the wake-up settles what a flush is owed. -/
theorem FlushOwed.step (ho : FlushOwed s) {a : SpscAct T}
    (ha : a ≠ .wake) (hs : s.step N D a = some s') : FlushOwed s' := by
  cases a with
  | wake => exact absurd rfl ha
  | write v =>
      cases hw : s.writer <;> simp [Spsc.step, hw] at hs
      subst hs
      exact .inr (by simpa [FlushOwed, hw] using ho)
  | push fresh =>
      cases hw : s.writer <;> simp [Spsc.step, hw] at hs
      obtain ⟨q, _, rfl⟩ := hs
      exact .inr (by simpa [FlushOwed, hw] using ho)
  | flush | cas =>
      cases hw : s.writer <;> simp [Spsc.step, hw] at hs
      have hpos : 0 < s.wakeups := by simpa [FlushOwed, hw] using ho
      split at hs <;> cases hs <;> exact .inr hpos
  | set =>
      cases hw : s.writer <;> simp [Spsc.step, hw] at hs
      subst hs
      exact .inr (Nat.succ_pos _)
  | read =>
      cases hr : s.reader <;> simp [Spsc.step, hr] at hs
      obtain ⟨_, hs⟩ := hs
      split at hs
      · split at hs <;> cases hs <;> exact ho
      · cases hs
        exact ho
  | fetch =>
      cases hr : s.reader <;> simp [Spsc.step, hr] at hs
      split at hs <;> cases hs <;> exact ho
  | copy | pop =>
      cases hr : s.reader <;> simp [Spsc.step, hr] at hs
      subst hs
      exact ho

/-- From a state in which a flush is owed, the reader does not touch `c` before
it consumes the wake-up. -/
theorem Inv.no_fetch_before_wake (hN : 0 < N) {bs : List (SpscAct T)}
    {t : Spsc T} (hrun : Run (Spsc.step N D) Any s bs t)
    (h : Inv N D s y chunk) (ho : FlushOwed s)
    (hwake : ∀ a ∈ bs, a ≠ .wake) : ∀ a ∈ bs, a ≠ .fetch := by
  induction hrun generalizing y chunk with
  | nil s => simp
  | @cons s s' t a as hok hs rest ih =>
      have hne : a ≠ .wake := hwake a (by simp)
      obtain ⟨y', chunk', h'⟩ := h.step hN hs
      have htail := ih h' (ho.step hne hs) (fun b hb => hwake b (by simp [hb]))
      intro b hb
      rcases List.mem_cons.mp hb with rfl | hb
      · rintro rfl
        have hnf := h.not_fetching ho
        cases hr : s.reader <;> simp_all [Spsc.step]
      · exact htail b hb

/-- **`ypipe_t` is a single-producer single-consumer queue.**  For both values
of `D`, every chunk size, every choice of chunk addresses and every
interleaving:

* the values returned are a prefix of the values written before the last
  completed flush;
* a `cas` in `flush` fails, so that the flush returns false, exactly when it
  finds `c` at `NULL`; then the reader sleeps or is committed to, and it does
  not touch `c` before the wake-up;
* when the reader sleeps and no wake-up is outstanding, every flushed value has
  been read. -/
theorem spsc_queue {dead : Bool} {fresh fresh' : Addr} {m : YpipeMem T}
    (hN : 0 < N) (hm : YpipeMem.create N dead fresh fresh' = some m)
    {as : List (SpscAct T)}
    (h : Run (Spsc.step N D) Any (Spsc.start dead m) as s) :
    (∃ k, k ≤ s.flushed ∧ s.returned = (s.written.take k).map some) ∧
    (∀ s', s.step N D .cas = some s' →
      (s'.writer = .set ↔ s.pipe.c = none) ∧
      (s'.writer = .set → Committed D s' ∧
        ∀ bs t, Run (Spsc.step N D) Any s' bs t →
          (∀ a ∈ bs, a ≠ .wake) → ∀ a ∈ bs, a ≠ .fetch)) ∧
    (s.asleep = true → s.wakeups = 0 → s.returned.length = s.flushed) := by
  obtain ⟨y, chunk, hinv⟩ := Inv.run hN hm h
  have hfw := hinv.proto.front_le_w
  refine ⟨⟨y.front, ?_, ?_⟩, ?_, ?_⟩
  · rw [hinv.flushed]
    exact hfw
  · rw [hinv.returned, hinv.written]
  · intro s' hs
    obtain ⟨y', chunk', hinv'⟩ := hinv.step hN hs
    cases hw : s.writer <;> simp only [Spsc.step, hw, reduceCtorEq] at hs
    have hcw := (hinv.sim.c_eq_w_iff hinv.proto).trans hinv.proto.c_eq_w_iff
    have hcn := hinv.sim.c_none_iff
    by_cases hc : s.pipe.c = s.pipe.w
    · rw [if_pos hc, Option.some.injEq] at hs
      have hne : ¬ s.pipe.c = none := fun hn => hcw.mp hc (hcn.mp hn)
      subst hs
      simp [hne]
    · rw [if_neg hc, Option.some.injEq] at hs
      have hnone : s.pipe.c = none := by
        refine hcn.mpr ?_
        rcases hinv.proto.cEq with hn | hn
        · exact hn
        · exact absurd ((hinv.sim.c_eq_w_iff hinv.proto).mpr hn) hc
      subst hs
      refine ⟨by simp [hnone], fun hset => ⟨hinv'.committed hnone, ?_⟩⟩
      intro bs t hrun hwake
      exact Inv.no_fetch_before_wake hN hrun hinv' (.inl hset) hwake
  · intro ha hzero
    have hproto := hinv.proto
    rw [hzero] at hproto
    have hall := hproto.all_read_of_asleep ha
    have hback := hinv.proto.front_le_back
    rw [hinv.returned, hinv.flushed, List.length_map, List.length_take, ← hall]
    exact Nat.min_eq_left hback

/-- A value passed through a dead pipe with chunks of one element; the reader is
woken once, drains the pipe and goes back to sleep. -/
theorem spsc_queue_one_value :
    ∃ (m : YpipeMem Nat) (s : Spsc Nat),
      YpipeMem.create 1 true 0 1 = some m ∧
      Run (Spsc.step 1 false) Any (Spsc.start true m)
        [.write 7, .push 2, .flush, .cas, .set, .wake, .read, .fetch, .copy,
          .pop, .read, .fetch] s ∧
      s.returned = [some 7] ∧ s.asleep = true ∧
      s.returned.length = s.flushed := by
  let m : YpipeMem Nat := (YpipeMem.create 1 true 0 1).get rfl
  have hm : YpipeMem.create 1 true 0 1 = some m := rfl
  have hrun : Run (Spsc.step 1 false) Any (Spsc.start true m)
      [.write 7, .push 2, .flush, .cas, .set, .wake, .read, .fetch, .copy,
        .pop, .read, .fetch] _ := Run.of_exec rfl
  exact ⟨m, _, hm, hrun, rfl, rfl,
    (spsc_queue (by decide) hm hrun).2.2 rfl rfl⟩

end Spsc

end ZeroMQ
