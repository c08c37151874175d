import ZeroMQ.Lib.Run
import ZeroMQ.Queue.Ypipe

/-!
# Draining a command pipe

A command pipe is a `ypipe_t` with `D` set: its reader is promised that the
pipe dies in a finite time, however fast it is fed.  Here one writer writes and
flushes as it likes while one reader, woken up once for every `flush` that
returned false, calls `read` until that returns false.  The threads are
interleaved at every access to `c`.

`Drain` is the history of what happened between a wake-up and the read that
returned false.

## Main definitions

* `DrainSys` — the pipe, its two threads and the wake-ups under way.
* `Drain.Complete` — a drain did one `xchg` and returned what had been flushed
  by then.

## Main results

* `DrainInv.step` — the protocol and the histories, kept by every step.
* `drain_lets_go` — every drain of every interleaving is complete, and values
  flushed after its `xchg` come with another wake-up.
-/

namespace ZeroMQ

open ZeroMQ.Lib

/-- A value was prefetched already unless `r` points to the front. -/
theorem Ypipe.prefetched_iff {T : Type} {y : Ypipe T} :
    y.prefetched = true ↔ y.r ≠ some y.front := by
  unfold Ypipe.prefetched
  rw [bne_iff_ne]
  exact ne_comm

theorem Ypipe.r_of_not_prefetched {T : Type} {y : Ypipe T}
    (h : y.prefetched = false) : y.r = some y.front := by
  unfold Ypipe.prefetched at h
  rw [bne_eq_false_iff_eq] at h
  exact h.symm

/-- Where the writer is: outside `flush`, or in it after a `cas` that found
`NULL`. -/
inductive FlushPc where
  | idle
  | set
  deriving DecidableEq, Repr

/-- Where the reader is: asleep, or in its loop before a call of `read`, before
the prefetch, or before it takes the value. -/
inductive ReadPc where
  | asleep
  | read
  | fetch
  | pop
  deriving DecidableEq, Repr

/-- One drain: `front` at the wake-up, `w` at the `xchg`, the pointers `xchg`
returned, the values `read` returned, the results of the flushes that came after
the `xchg` and had something to flush, and the steps the reader took. -/
structure Drain (T : Type) where
  first : Nat
  published : Nat
  xchgs : List (Option Nat)
  values : List (Option T)
  flushes : List Bool
  steps : Nat
  deriving DecidableEq, Repr

namespace Drain

variable {T : Type}

/-- The reader has been woken up. -/
def begin (first : Nat) : Drain T :=
  { first := first, published := 0, xchgs := [], values := [], flushes := [],
    steps := 0 }

/-- A step of the reader. -/
def tick (d : Drain T) : Drain T := { d with steps := d.steps + 1 }

/-- A `flush` has returned `rc`. -/
def flushed (rc : Bool) (d : Drain T) : Drain T :=
  if d.xchgs = [] then d else { d with flushes := d.flushes ++ [rc] }

/-- The reader did exactly one `xchg`, got the end of what was flushed at that
moment, at least one value, and returned the values up to there. -/
structure Complete (slots : List T) (d : Drain T) : Prop where
  xchgs : d.xchgs = [some d.published]
  some : d.first < d.published
  stored : d.published ≤ slots.length
  values : d.values =
    ((slots.drop d.first).take (d.published - d.first)).map Option.some
  steps : d.steps = 2 * (d.published - d.first) + 2

variable {d : Drain T} {slots : List T}

theorem take_drop_append (vs : List T) {a n : Nat}
    (h : a + n ≤ slots.length) :
    ((slots ++ vs).drop a).take n = (slots.drop a).take n := by
  rw [List.drop_append_of_le_length (by omega), List.take_append_of_le_length]
  rw [List.length_drop]
  omega

theorem Complete.append (h : d.Complete slots)
    (vs : List T) : d.Complete (slots ++ vs) := by
  have hsome := h.some
  have hstored := h.stored
  exact
    { h with
      stored := by
        rw [List.length_append]
        omega
      values := by
        rw [take_drop_append vs (by omega)]
        exact h.values }

/-- A result of `flush` changes nothing else in the history. -/
theorem flushed_eq (rc : Bool) (d : Drain T) :
    d.flushed rc = { d with flushes := (d.flushed rc).flushes } := by
  unfold Drain.flushed
  split
  · rfl
  · rfl

theorem flushed_of_xchgs (rc : Bool) (h : d.xchgs ≠ []) :
    (d.flushed rc).flushes = d.flushes ++ [rc] := by
  rw [Drain.flushed, if_neg h]

theorem Complete.flushed (h : d.Complete slots) (rc : Bool) :
    (d.flushed rc).Complete slots := by
  rw [flushed_eq]
  exact ⟨h.xchgs, h.some, h.stored, h.values, h.steps⟩

end Drain

/-- The pipe, its threads, the wake-ups sent and not consumed, the drain under
way or the last one, and the drains that have come to an end. -/
structure DrainSys (T : Type) where
  pipe : Ypipe T
  writer : FlushPc
  reader : ReadPc
  wakeups : Nat
  drain : Option (Drain T)
  drains : List (Drain T)
  deriving DecidableEq, Repr

/-- The steps of the two threads. -/
inductive DrainAct (T : Type) where
  | write (value : T)
  | flush
  | set
  | wake
  | read
  deriving DecidableEq, Repr

namespace DrainSys

variable {T : Type}

/-- A new pipe, its reader asleep if it is created dead. -/
def start (dead : Bool) : DrainSys T :=
  { pipe := Ypipe.create dead, writer := .idle,
    reader := if dead then .asleep else .read, wakeups := 0, drain := none,
    drains := [] }

/-- `read` has returned false. -/
def sleep (s : DrainSys T) : DrainSys T :=
  { s with reader := .asleep, drains := s.drains ++ s.drain.toList }

/-- The next step of a reader that is awake. -/
def readStep (s : DrainSys T) : DrainSys T :=
  let s := { s with drain := s.drain.map Drain.tick }
  match s.reader with
  | .asleep => s
  | .read =>
      if s.pipe.prefetched then { s with reader := .pop }
      else if s.pipe.stop then sleep { s with pipe := s.pipe.stopRead }
      else { s with reader := .fetch }
  | .fetch =>
      let s' : DrainSys T :=
        { s with
          pipe := (s.pipe.fetch true).2
          drain := s.drain.map fun d =>
            { d with published := s.pipe.w, xchgs := d.xchgs ++ [s.pipe.c] } }
      if (s.pipe.fetch true).1 then { s' with reader := .pop } else s'.sleep
  | .pop =>
      { s with
        pipe := s.pipe.pop
        reader := .read
        drain := s.drain.map fun d =>
          { d with values := d.values ++ [s.pipe.load] } }

/-- One step of one thread. -/
def step (s : DrainSys T) : DrainAct T → Option (DrainSys T)
  | .write value =>
      if s.writer = .idle then some { s with pipe := s.pipe.write value }
      else none
  | .flush =>
      if s.writer = .idle then
        if s.pipe.unflushed then
          if s.pipe.flushCas.1 then
            some
              { s with
                pipe := s.pipe.flushCas.2
                drain := s.drain.map (Drain.flushed true) }
          else some { s with writer := .set }
        else some s
      else none
  | .set =>
      if s.writer = .set then
        some
          { s with
            pipe := s.pipe.flushSet
            writer := .idle
            wakeups := s.wakeups + 1
            drain := s.drain.map (Drain.flushed false) }
      else none
  | .wake =>
      if s.reader = .asleep ∧ 0 < s.wakeups then
        some
          { s with
            reader := .read
            wakeups := s.wakeups - 1
            drain := some (.begin s.pipe.front) }
      else none
  | .read => if s.reader = .asleep then none else some s.readStep

/-! ## The invariant -/

/-- The drain under way.  Before its `xchg` the reader has done nothing; after
it the reader has promised to sleep, and has returned the values from `first`
to `front`. -/
inductive Under (s : DrainSys T) (d : Drain T) : Prop where
  | before (xchgs : d.xchgs = []) (values : d.values = [])
      (flushes : d.flushes = []) (front : s.pipe.front = d.first)
      (r : s.pipe.r = some s.pipe.front) (some : s.pipe.front < s.pipe.w)
      (stop : s.pipe.stop = false)
      (steps : s.reader = .read ∧ d.steps = 0 ∨
        s.reader = .fetch ∧ d.steps = 1)
  | after (xchgs : d.xchgs = [some d.published])
      (r : s.pipe.r = some d.published) (some : d.first < d.published)
      (front : s.pipe.front = d.first + d.values.length)
      (stored : d.published ≤ s.pipe.slots.length)
      (values : d.values =
        ((s.pipe.slots.drop d.first).take d.values.length).map Option.some)
      (stop : s.pipe.stop = true)
      (steps : s.reader = .read ∧ d.steps = 2 * d.values.length + 1 ∨
        s.reader = .pop ∧ d.steps = 2 * d.values.length + 2)

/-- Since the `xchg` nothing has been flushed and `c` is `NULL`, or the first
`flush` has returned false and its wake-up is due. -/
def Late (s : DrainSys T) (d : Drain T) : Prop :=
  d.flushes = [] ∧ s.pipe.c = none ∨
    (∃ rest, d.flushes = false :: rest) ∧ s.wakeups = 1

/-- The protocol of the pipe and the histories of its drains. -/
structure DrainInv (s : DrainSys T) : Prop where
  proto : s.pipe.Proto true (s.reader = .asleep) s.wakeups
  set : s.writer = .set → s.pipe.c = none ∧ s.pipe.w ≠ s.pipe.back
  due : s.wakeups = 1 → s.pipe.r ≠ some s.pipe.w
  fetch : s.reader = .fetch →
    s.pipe.r = some s.pipe.front ∧ s.pipe.stop = false
  pop : s.reader = .pop → s.pipe.r ≠ some s.pipe.front
  under : s.reader ≠ .asleep → ∀ d, s.drain = some d → Under s d
  late : ∀ d, s.drain = some d → d.xchgs ≠ [] → Late s d
  slept : s.reader = .asleep → ∀ d, s.drain = some d →
    d.Complete s.pipe.slots ∧ s.pipe.front = d.published
  complete : ∀ d ∈ s.drains, d.Complete s.pipe.slots

variable {s s' : DrainSys T} {d : Drain T}

theorem DrainInv.start (dead : Bool) : DrainInv (start dead : DrainSys T) where
  proto := by
    have hproto := Ypipe.Proto.create (T := T) (D := true) dead
    apply hproto.congr
    cases dead with
    | true => exact iff_of_true rfl rfl
    | false => exact iff_of_false Bool.false_ne_true nofun
  set h := by cases h
  due h := by cases h
  fetch h := by cases dead <;> cases h
  pop h := by cases dead <;> cases h
  under _ d h := by cases h
  late d h := by cases h
  slept _ d h := by cases h
  complete d h := by cases h

/-! ## The writer -/

/-- The front is not beyond what the `xchg` returned. -/
theorem Under.front_le (h : Under s d) (hproto : s.pipe.Proto true
    (s.reader = .asleep) s.wakeups) (hx : d.xchgs ≠ []) :
    s.pipe.front ≤ d.published := by
  cases h with
  | before xchgs => exact absurd xchgs hx
  | after xchgs r =>
      obtain ⟨ri, hr, hle, _⟩ := hproto.rd
      rw [r] at hr
      cases hr
      exact hle

theorem DrainInv.write (h : DrainInv s) (value : T) :
    DrainInv { s with pipe := s.pipe.write value } where
  proto := h.proto.write value
  set hw := by
    have hle := h.proto.wBack
    refine ⟨(h.set hw).1, ?_⟩
    show s.pipe.w ≠ (s.pipe.write value).back
    rw [Ypipe.back_write]
    omega
  due := h.due
  fetch := h.fetch
  pop := h.pop
  under ha d hd := by
    have hunder := h.under ha d hd
    have hle := hunder.front_le h.proto
    cases hunder with
    | before xchgs values flushes front r some stop steps =>
        exact .before xchgs values flushes front r some stop steps
    | after xchgs r some front stored values stop steps =>
        have hle := hle (by rw [xchgs]; exact List.cons_ne_nil _ _)
        refine .after xchgs r some front ?_ ?_ stop steps
        · show d.published ≤ (s.pipe.slots ++ [value]).length
          rw [List.length_append]
          omega
        · show d.values = (((s.pipe.slots ++ [value]).drop d.first).take
            d.values.length).map Option.some
          rw [Drain.take_drop_append [value] (by omega)]
          exact values
  late := h.late
  slept ha d hd := ⟨(h.slept ha d hd).1.append [value], (h.slept ha d hd).2⟩
  complete d hd := (h.complete d hd).append [value]

/-- The drain under way sees a `flush` only as a larger `w`. -/
theorem Under.flush {w wakeups : Nat} {c : Option Nat} {writer : FlushPc}
    (rc : Bool) (h : Under s d) (hw : s.pipe.w ≤ w) :
    Under
      { s with
        pipe := { s.pipe with w := w, c := c }
        writer := writer
        wakeups := wakeups
        drain := s.drain.map (Drain.flushed rc) } (d.flushed rc) := by
  cases h with
  | before xchgs values flushes front r some stop steps =>
      have hsame : d.flushed rc = d := if_pos xchgs
      rw [hsame]
      exact .before xchgs values flushes front r (Nat.lt_of_lt_of_le some hw)
        stop steps
  | after xchgs r some front stored values stop steps =>
      rw [Drain.flushed_eq]
      exact .after xchgs r some front stored values stop steps

/-- A drain that is over stays so when there is a `flush`. -/
theorem DrainInv.slept_flushed (h : DrainInv s) (rc : Bool)
    (ha : s.reader = .asleep)
    (hd : s.drain.map (Drain.flushed rc) = some d) :
    d.Complete s.pipe.slots ∧ s.pipe.front = d.published := by
  obtain ⟨d₀, hd₀, rfl⟩ := Option.map_eq_some_iff.mp hd
  refine ⟨(h.slept ha d₀ hd₀).1.flushed rc, ?_⟩
  rw [Drain.flushed_eq]
  exact (h.slept ha d₀ hd₀).2

theorem DrainInv.casFound (h : DrainInv s) (hidle : s.writer = .idle)
    (hc : s.pipe.c = some s.pipe.w) :
    DrainInv
      { s with
        pipe := { s.pipe with c := some s.pipe.back, w := s.pipe.back }
        drain := s.drain.map (Drain.flushed true) } where
  proto := h.proto.flushCas hc
  set hw := by
    have hw : s.writer = .set := hw
    rw [hidle] at hw
    cases hw
  due hw := by
    -- The reader is not nearer to the end than before.
    obtain ⟨ri, hr, _, hle⟩ := h.proto.rd
    have hne := h.due hw
    have hback := h.proto.wBack
    show s.pipe.r ≠ some s.pipe.back
    rw [hr] at hne ⊢
    intro heq
    apply hne
    cases heq
    congr 1
    omega
  fetch := h.fetch
  pop := h.pop
  under ha d hd := by
    obtain ⟨d₀, hd₀, rfl⟩ := Option.map_eq_some_iff.mp hd
    exact (h.under ha d₀ hd₀).flush true h.proto.wBack
  late d hd hx := by
    obtain ⟨d₀, hd₀, rfl⟩ := Option.map_eq_some_iff.mp hd
    have hx₀ : d₀.xchgs ≠ [] := by
      rw [Drain.flushed_eq] at hx
      exact hx
    rcases h.late d₀ hd₀ hx₀ with ⟨_, hnull⟩ | ⟨⟨rest, hrest⟩, hw⟩
    · rw [hnull] at hc
      cases hc
    · refine .inr ⟨⟨rest ++ [true], ?_⟩, hw⟩
      rw [Drain.flushed_of_xchgs true hx₀, hrest, List.cons_append]
  slept ha d hd := h.slept_flushed true ha hd
  complete := h.complete

theorem DrainInv.casNull (h : DrainInv s) (hu : s.pipe.unflushed = true)
    (hc : s.pipe.c ≠ some s.pipe.w) : DrainInv { s with writer := .set } :=
  { h with
    set := fun _ =>
      ⟨h.proto.cEq.resolve_right hc, by simpa [Ypipe.unflushed] using hu⟩
    under := fun ha d hd => by
      cases h.under ha d hd with
      | before xchgs values flushes front r some stop steps =>
          exact .before xchgs values flushes front r some stop steps
      | after xchgs r some front stored values stop steps =>
          exact .after xchgs r some front stored values stop steps }

theorem DrainInv.setStep (h : DrainInv s) (hset : s.writer = .set) :
    DrainInv
      { s with
        pipe := s.pipe.flushSet
        writer := .idle
        wakeups := s.wakeups + 1
        drain := s.drain.map (Drain.flushed false) } := by
  obtain ⟨hc, hne⟩ := h.set hset
  obtain ⟨_, hzero⟩ := h.proto.of_c_none hc
  have hback := h.proto.wBack
  exact
    { h with
      proto := by
        show s.pipe.flushSet.Proto true (s.reader = .asleep) (s.wakeups + 1)
        rw [hzero]
        exact h.proto.flushSet hc
      set := nofun
      due := fun _ => by
        show s.pipe.r ≠ some s.pipe.back
        rw [h.proto.drained hc]
        exact fun heq => hne (Option.some.inj heq)
      under := fun ha d hd => by
        obtain ⟨d₀, hd₀, rfl⟩ := Option.map_eq_some_iff.mp hd
        exact (h.under ha d₀ hd₀).flush false hback
      late := fun d hd hx => by
        obtain ⟨d₀, hd₀, rfl⟩ := Option.map_eq_some_iff.mp hd
        have hx₀ : d₀.xchgs ≠ [] := by
          rw [Drain.flushed_eq] at hx
          exact hx
        right
        refine ⟨?_, by show s.wakeups + 1 = 1; omega⟩
        rcases h.late d₀ hd₀ hx₀ with ⟨hnil, _⟩ | ⟨_, hw⟩
        · exact ⟨[], by rw [Drain.flushed_of_xchgs false hx₀, hnil]; rfl⟩
        · omega
      slept := fun ha d hd => h.slept_flushed false ha hd }

/-! ## The reader -/

theorem DrainInv.wake (h : DrainInv s) (ha : s.reader = .asleep)
    (hw : 0 < s.wakeups) :
    DrainInv
      { s with
        reader := .read
        wakeups := s.wakeups - 1
        drain := some (.begin s.pipe.front) } := by
  have hone : s.wakeups = 1 := by
    have := h.proto.wakeLe
    omega
  have hproto := h.proto
  rw [hone] at hproto
  have hawake := hproto.wake ha
  have hr := h.proto.sleepR ha
  have hsome : s.pipe.front < s.pipe.w := by
    have hne := h.due hone
    have hle := h.proto.front_le_w
    rw [hr] at hne
    have : s.pipe.front ≠ s.pipe.w := fun heq => hne (congrArg some heq)
    omega
  have hstop : s.pipe.stop = false := by
    cases hs : s.pipe.stop with
    | false => rfl
    | true => exact ((h.proto.stopD hs).2 ha).elim
  exact
    { h with
      proto := by
        show s.pipe.Proto true (ReadPc.read = .asleep) (s.wakeups - 1)
        rw [hone]
        exact hawake.congr ⟨False.elim, nofun⟩
      due := fun hd => by
        have hd : s.wakeups - 1 = 1 := hd
        omega
      fetch := nofun
      pop := nofun
      under := fun _ d hd => by
        cases hd
        exact .before rfl rfl rfl rfl hr hsome hstop (.inl ⟨rfl, rfl⟩)
      late := fun d hd hx => by
        cases hd
        exact absurd rfl hx
      slept := nofun }

/-- A drain that is not over has the same late flushes after a step of the
reader that leaves `c` alone. -/
theorem late_tick (h : DrainInv s) {d : Drain T}
    (hd : s.drain.map Drain.tick = some d) (hx : d.xchgs ≠ []) : Late s d := by
  obtain ⟨d₀, hd₀, rfl⟩ := Option.map_eq_some_iff.mp hd
  exact h.late d₀ hd₀ hx

theorem DrainInv.readPop (h : DrainInv s) (hread : s.reader = .read)
    (hp : s.pipe.prefetched = true) :
    DrainInv
      { s with drain := s.drain.map Drain.tick, reader := .pop } := by
  have hne := Ypipe.prefetched_iff.mp hp
  have ha : s.reader ≠ .asleep := by simp [hread]
  exact
    { h with
      proto := h.proto.congr (iff_of_false ha nofun)
      fetch := nofun
      pop := fun _ => hne
      under := fun _ d hd => by
        obtain ⟨d₀, hd₀, rfl⟩ := Option.map_eq_some_iff.mp hd
        cases h.under ha d₀ hd₀ with
        | before xchgs values flushes front r => exact absurd r hne
        | after xchgs r some front stored values stop steps =>
            refine .after xchgs r some front stored values stop
              (.inr ⟨rfl, ?_⟩)
            show d₀.steps + 1 = 2 * d₀.values.length + 2
            rcases steps with ⟨_, hsteps⟩ | ⟨hpop, _⟩
            · omega
            · rw [hread] at hpop
              cases hpop
      late := fun _ => late_tick h
      slept := nofun }

/-- The prefetch has been used up, and no second one is made. -/
theorem DrainInv.readStop (h : DrainInv s) (hread : s.reader = .read)
    (hp : s.pipe.prefetched = false) (hs : s.pipe.stop = true) :
    DrainInv
      (sleep
        { s with
          drain := s.drain.map Drain.tick
          pipe := s.pipe.stopRead }) := by
  have hr := Ypipe.r_of_not_prefetched hp
  have ha : s.reader ≠ .asleep := by simp [hread]
  have hover : ∀ d, s.drain.map Drain.tick = some d →
      d.Complete s.pipe.slots ∧ s.pipe.front = d.published := by
    intro d hd
    obtain ⟨d₀, hd₀, rfl⟩ := Option.map_eq_some_iff.mp hd
    cases h.under ha d₀ hd₀ with
    | before xchgs values flushes front r some stop =>
        rw [hs] at stop
        cases stop
    | after xchgs r some front stored values stop steps =>
        rw [hr] at r
        have hend : s.pipe.front = d₀.published := Option.some.inj r
        have hlen : d₀.values.length = d₀.published - d₀.first := by omega
        refine ⟨⟨xchgs, some, stored, ?_, ?_⟩, hend⟩
        · show d₀.values = ((s.pipe.slots.drop d₀.first).take
            (d₀.published - d₀.first)).map Option.some
          rw [← hlen]
          exact values
        · show d₀.steps + 1 = 2 * (d₀.published - d₀.first) + 2
          rcases steps with ⟨_, hsteps⟩ | ⟨hpop, _⟩
          · omega
          · rw [hread] at hpop
            cases hpop
  exact
    { h with
      proto := (h.proto.stopRead hs hr).congr ⟨fun _ => rfl, fun _ => trivial⟩
      fetch := nofun
      pop := nofun
      under := fun ha => absurd rfl ha
      late := fun _ => late_tick h
      slept := fun _ => hover
      complete := fun d hd => by
        rcases List.mem_append.mp hd with hold | hnew
        · exact h.complete d hold
        · exact (hover d (Option.mem_toList.mp hnew)).1 }

theorem DrainInv.readFetch (h : DrainInv s) (hread : s.reader = .read)
    (hp : s.pipe.prefetched = false) (hs : s.pipe.stop = false) :
    DrainInv
      { s with drain := s.drain.map Drain.tick, reader := .fetch } := by
  have hr := Ypipe.r_of_not_prefetched hp
  have ha : s.reader ≠ .asleep := by simp [hread]
  exact
    { h with
      proto := h.proto.congr (iff_of_false ha nofun)
      fetch := fun _ => ⟨hr, hs⟩
      pop := nofun
      under := fun _ d hd => by
        obtain ⟨d₀, hd₀, rfl⟩ := Option.map_eq_some_iff.mp hd
        cases h.under ha d₀ hd₀ with
        | before xchgs values flushes front r some stop steps =>
            refine .before xchgs values flushes front r some stop
              (.inr ⟨rfl, ?_⟩)
            show d₀.steps + 1 = 1
            rcases steps with ⟨_, hsteps⟩ | ⟨hfetch, _⟩
            · omega
            · rw [hread] at hfetch
              cases hfetch
        | after xchgs r some front stored values stop =>
            rw [hs] at stop
            cases stop
      late := fun _ => late_tick h
      slept := nofun }

/-- The history of the `xchg`. -/
def exchanged (s : DrainSys T) (d : Drain T) : Drain T :=
  { d.tick with published := s.pipe.w, xchgs := d.xchgs ++ [s.pipe.c] }

theorem DrainInv.at_fetch (h : DrainInv s) (hfetch : s.reader = .fetch)
    (hd : s.drain = some d) :
    d.xchgs = [] ∧ d.values = [] ∧ d.flushes = [] ∧
      s.pipe.front = d.first ∧ s.pipe.front < s.pipe.w ∧ d.steps = 1 := by
  have ha : s.reader ≠ .asleep := by simp [hfetch]
  cases h.under ha d hd with
  | before xchgs values flushes front r some stop steps =>
      rcases steps with ⟨hread, _⟩ | ⟨_, hsteps⟩
      · rw [hfetch] at hread
        cases hread
      · exact ⟨xchgs, values, flushes, front, some, hsteps⟩
  | after xchgs r some front stored values stop =>
      rw [(h.fetch hfetch).2] at stop
      cases stop

/-- The one `xchg` of a drain. -/
theorem DrainInv.fetchFound (h : DrainInv s) (hfetch : s.reader = .fetch)
    (hf : (s.pipe.fetch true).1 = true) :
    DrainInv
      { s with
        pipe := (s.pipe.fetch true).2
        drain := s.drain.map s.exchanged
        reader := .pop } := by
  have ha : s.reader ≠ .asleep := by simp [hfetch]
  obtain ⟨hr, hs⟩ := h.fetch hfetch
  obtain ⟨hc, hzero⟩ := h.proto.c_of_awake ha hs
  obtain ⟨hproto, hr', hlt⟩ := h.proto.fetch_true ha hs hf
  have hafter : (s.pipe.fetch true).2.c = none ∧
      (s.pipe.fetch true).2.stop = true := by
    unfold Ypipe.fetch at hf ⊢
    rw [if_pos rfl] at hf ⊢
    split at hf
    · cases hf
    · next hne =>
        rw [if_neg hne]
        exact ⟨rfl, rfl⟩
  exact
    { proto := hproto.congr (iff_of_false ha nofun)
      set := fun hw => by
        have hnull := (h.set hw).1
        rw [hc] at hnull
        cases hnull
      due := fun hw => by
        have hw : s.wakeups = 1 := hw
        omega
      fetch := nofun
      pop := fun _ => by
        show (s.pipe.fetch true).2.r ≠ some (s.pipe.fetch true).2.front
        rw [hr', Ypipe.front_fetch]
        intro heq
        have := Option.some.inj heq
        omega
      under := fun _ d hd => by
        obtain ⟨d₀, hd₀, rfl⟩ := Option.map_eq_some_iff.mp hd
        obtain ⟨hx, hv, _, hfront, _, hsteps⟩ := h.at_fetch hfetch hd₀
        refine .after ?_ hr' ?_ ?_ ?_ ?_ hafter.2 (.inr ⟨rfl, ?_⟩)
        · simp [exchanged, hx, hc]
        · show d₀.first < s.pipe.w
          omega
        · show (s.pipe.fetch true).2.front = d₀.first + d₀.values.length
          rw [Ypipe.front_fetch, hfront, hv]
          rfl
        · show s.pipe.w ≤ (s.pipe.fetch true).2.slots.length
          rw [Ypipe.slots_fetch]
          exact h.proto.wBack
        · simp [exchanged, Drain.tick, hv]
        · show d₀.steps + 1 = 2 * d₀.values.length + 2
          rw [hv, hsteps]
          rfl
      late := fun d hd _ => by
        obtain ⟨d₀, hd₀, rfl⟩ := Option.map_eq_some_iff.mp hd
        exact .inl ⟨(h.at_fetch hfetch hd₀).2.2.1, hafter.1⟩
      slept := nofun
      complete := fun d hd => by
        show d.Complete (s.pipe.fetch true).2.slots
        rw [Ypipe.slots_fetch]
        exact h.complete d hd }

/-- An `xchg` that finds nothing does not happen after a wake-up. -/
theorem DrainInv.fetchNone (h : DrainInv s) (hfetch : s.reader = .fetch)
    (hf : (s.pipe.fetch true).1 = false) :
    s.drain = none ∧
    DrainInv
      (sleep
        { s with
          pipe := (s.pipe.fetch true).2
          drain := s.drain.map s.exchanged }) := by
  have ha : s.reader ≠ .asleep := by simp [hfetch]
  obtain ⟨_, hs⟩ := h.fetch hfetch
  obtain ⟨hc, hzero⟩ := h.proto.c_of_awake ha hs
  have hend : s.pipe.front = s.pipe.w := by
    by_cases heq : s.pipe.front = s.pipe.w
    · exact heq
    · have hfound : (s.pipe.fetch true).1 = true := by
        simp [Ypipe.fetch, hc, heq]
      rw [hfound] at hf
      cases hf
  have hnone : s.drain = none := by
    cases hd : s.drain with
    | none => rfl
    | some d =>
        obtain ⟨_, _, _, _, hlt, _⟩ := h.at_fetch hfetch hd
        omega
  refine ⟨hnone, ?_⟩
  rw [hnone]
  exact
    { proto := (h.proto.fetch_false ha hs hf).congr
        ⟨fun _ => rfl, fun _ => trivial⟩
      set := fun hw => by
        have hnull := (h.set hw).1
        rw [hc] at hnull
        cases hnull
      due := fun hw => by
        have hw : s.wakeups = 1 := hw
        omega
      fetch := fun hf => by cases hf
      pop := fun hp => by cases hp
      under := fun ha => absurd rfl ha
      late := fun d hd => by cases hd
      slept := fun _ d hd => by cases hd
      complete := fun d hd => by
        show d.Complete (s.pipe.fetch true).2.slots
        rw [Ypipe.slots_fetch]
        rcases List.mem_append.mp hd with hold | hnew
        · exact h.complete d hold
        · cases hnew }

theorem DrainInv.popStep (h : DrainInv s) (hpop : s.reader = .pop) :
    DrainInv
      { s with
        pipe := s.pipe.pop
        reader := .read
        drain := (s.drain.map Drain.tick).map fun d =>
          { d with values := d.values ++ [s.pipe.load] } } := by
  have ha : s.reader ≠ .asleep := by simp [hpop]
  have hne := h.pop hpop
  exact
    { h with
      proto := (h.proto.pop ha hne).congr
        (iff_of_false ha nofun)
      fetch := nofun
      pop := nofun
      under := fun _ d hd => by
        obtain ⟨d₁, hd₁, rfl⟩ := Option.map_eq_some_iff.mp hd
        obtain ⟨d₀, hd₀, rfl⟩ := Option.map_eq_some_iff.mp hd₁
        have hunder := h.under ha d₀ hd₀
        have hle := hunder.front_le h.proto
        cases hunder with
        | before xchgs values flushes front r => exact absurd r hne
        | after xchgs r some front stored values stop steps =>
            refine .after xchgs r some ?_ stored ?_ stop (.inl ⟨rfl, ?_⟩)
            · show s.pipe.front + 1 = d₀.first +
                (d₀.values ++ [s.pipe.load]).length
              rw [List.length_append, List.length_singleton]
              omega
            · show d₀.values ++ [s.pipe.load] =
                ((s.pipe.slots.drop d₀.first).take
                  (d₀.values ++ [s.pipe.load]).length).map Option.some
              have hlt : s.pipe.front < s.pipe.slots.length := by
                have hlt := h.proto.front_lt_of_prefetched hne
                have hback := h.proto.wBack
                exact Nat.lt_of_lt_of_le hlt hback
              have hload : s.pipe.load = Option.some
                  (s.pipe.slots[s.pipe.front]) :=
                List.getElem?_eq_getElem hlt
              have hnext : (s.pipe.slots.drop d₀.first)[d₀.values.length]? =
                  Option.some (s.pipe.slots[s.pipe.front]) := by
                rw [List.getElem?_drop, ← front]
                exact List.getElem?_eq_getElem hlt
              rw [List.length_append, List.length_singleton, List.take_add_one,
                List.map_append, ← values, hload, hnext]
              rfl
            · show d₀.steps + 1 =
                2 * (d₀.values ++ [s.pipe.load]).length + 1
              rw [List.length_append, List.length_singleton]
              rcases steps with ⟨hread, _⟩ | ⟨_, hsteps⟩
              · rw [hpop] at hread
                cases hread
              · omega
      late := fun d hd hx => by
        obtain ⟨d₁, hd₁, rfl⟩ := Option.map_eq_some_iff.mp hd
        have hlate : Late s d₁ := late_tick h hd₁ hx
        exact hlate
      slept := nofun }

theorem DrainInv.readStep (h : DrainInv s) (ha : s.reader ≠ .asleep) :
    DrainInv s.readStep := by
  unfold DrainSys.readStep
  dsimp only
  cases hreader : s.reader with
  | asleep => exact absurd hreader ha
  | read =>
      dsimp only
      split
      · next hp => exact h.readPop hreader hp
      · next hp =>
          have hp : s.pipe.prefetched = false := by simpa using hp
          split
          · next hs => exact h.readStop hreader hp hs
          · next hs => exact h.readFetch hreader hp (by simpa using hs)
  | fetch =>
      dsimp only
      rw [Option.map_map]
      split
      · next hf => exact h.fetchFound hreader hf
      · next hf => exact (h.fetchNone hreader (by simpa using hf)).2
  | pop => exact h.popStep hreader

/-- Every step of either thread keeps the invariant. -/
theorem DrainInv.step (h : DrainInv s) {act : DrainAct T}
    (hstep : s.step act = some s') : DrainInv s' := by
  cases act with
  | write value =>
      obtain ⟨_, hstep⟩ := Option.ite_none_right_eq_some.mp hstep
      cases hstep
      exact h.write value
  | flush =>
      obtain ⟨hidle, hstep⟩ := Option.ite_none_right_eq_some.mp hstep
      split at hstep
      · next hu =>
          by_cases hc : s.pipe.c = some s.pipe.w
          · rw [Ypipe.flushCas_of_eq hc] at hstep
            cases hstep
            exact h.casFound hidle hc
          · rw [Ypipe.flushCas_of_ne hc] at hstep
            cases hstep
            exact h.casNull hu hc
      · cases hstep
        exact h
  | set =>
      obtain ⟨hset, hstep⟩ := Option.ite_none_right_eq_some.mp hstep
      cases hstep
      exact h.setStep hset
  | wake =>
      obtain ⟨⟨ha, hw⟩, hstep⟩ := Option.ite_none_right_eq_some.mp hstep
      cases hstep
      exact h.wake ha hw
  | read =>
      obtain ⟨ha, hstep⟩ := Option.ite_none_left_eq_some.mp hstep
      cases hstep
      exact h.readStep ha

/-! ## Every drain ends -/

/-- What the reader can rely on.  Every drain that has ended is complete; one
that is under way did at most one `xchg`, and then no more than a known number
of steps are left, each of which it can take.  When it has ended, the values
from the pointer on are still in the pipe; and if anything was flushed after the
`xchg`, the first such `flush` returned false and its wake-up is due. -/
structure LetsGo (s : DrainSys T) : Prop where
  complete : ∀ d ∈ s.drains, d.Complete s.pipe.slots
  once : ∀ d, s.drain = some d → d.xchgs.length ≤ 1
  bounded : s.reader ≠ .asleep → ∀ d, s.drain = some d → d.xchgs ≠ [] →
    d.steps < 2 * (d.published - d.first) + 2
  enabled : s.reader ≠ .asleep → (s.step .read).isSome = true
  left : s.reader = .asleep → ∀ d, s.drain = some d →
    s.pipe.front = d.published
  due : ∀ d, s.drain = some d → d.flushes ≠ [] →
    d.flushes.head? = some false ∧ s.wakeups = 1

theorem DrainInv.letsGo (h : DrainInv s) : LetsGo s where
  complete := h.complete
  once d hd := by
    by_cases ha : s.reader = .asleep
    · rw [(h.slept ha d hd).1.xchgs]
      exact Nat.le_refl 1
    · cases h.under ha d hd with
      | before xchgs =>
          rw [xchgs]
          exact Nat.zero_le 1
      | after xchgs =>
          rw [xchgs]
          exact Nat.le_refl 1
  bounded ha d hd hx := by
    have hunder := h.under ha d hd
    have hle := hunder.front_le h.proto hx
    cases hunder with
    | before xchgs => exact absurd xchgs hx
    | after xchgs r some front stored values stop steps =>
        rcases steps with ⟨_, hsteps⟩ | ⟨hpop, hsteps⟩
        · omega
        · have hne := h.pop hpop
          rw [r] at hne
          have hlt : s.pipe.front ≠ d.published :=
            fun heq => hne (by rw [heq])
          omega
  enabled ha := by
    rw [DrainSys.step, if_neg ha]
    rfl
  left ha d hd := (h.slept ha d hd).2
  due d hd hne := by
    have hx : d.xchgs ≠ [] := by
      intro hnil
      by_cases ha : s.reader = .asleep
      · rw [(h.slept ha d hd).1.xchgs] at hnil
        cases hnil
      · cases h.under ha d hd with
        | before xchgs values flushes => exact hne flushes
        | after xchgs =>
            rw [xchgs] at hnil
            cases hnil
    rcases h.late d hd hx with ⟨hnil, _⟩ | ⟨⟨rest, hrest⟩, hw⟩
    · exact absurd hnil hne
    · exact ⟨by rw [hrest]; rfl, hw⟩

end DrainSys

open DrainSys

/-- A pipe with `D` set always lets its reader go: in every interleaving of a
writer that writes and flushes with a reader that is woken up once for every
`flush` that returned false. -/
theorem drain_lets_go {T : Type} {dead : Bool} {acts : List (DrainAct T)}
    {s : DrainSys T} (h : Run step Any (start dead) acts s) : LetsGo s := by
  have hinv : DrainInv s :=
    h.invariant (fun _ _ _ hI _ hstep => hI.step hstep) (.start dead)
  exact hinv.letsGo

/-- The writer flushes two values after the `xchg`, before the reader has taken
the value it got: the reader goes to sleep with a wake-up due, and gets them in
its next drain. -/
theorem drain_lets_go_late_flush :
    ∃ s : DrainSys Nat,
      Run step Any (start true)
        ([.write 5, .flush, .set, .wake, .read, .read, .write 6, .flush, .set,
          .write 7, .flush, .read, .read, .wake] ++
          List.replicate 6 .read) s ∧
      (s.drains.map Drain.values = [[some 5], [some 6, some 7]] ∧
        s.drains.map Drain.flushes = [[false, true], []]) ∧
      LetsGo s :=
  Run.exists_of_exec (by decide +kernel)
    fun _ hrun hs => ⟨hs, drain_lets_go hrun⟩

end ZeroMQ
