import Mathlib.Data.List.Nodup
import ZeroMQ.Lib.Rotation
import ZeroMQ.Message.Fanout

/-!
# `mux_t`

The fair queueing of `libzmq/mux.cpp`: a mux reads from its pipes in turn,
starting just past the pipe that had the last message.  The pipes are those of
`ZeroMQ.Pipe.System`, with everything their writers can have done to them, and
a pipe is named by its place in the list.

`pipe_t::read` touches the word it shares with the writer once, so a call of
`mux_t::read` is one step here, and the pipes' threads are free to move between
two calls.  `served` is a history: the places messages were read from.

## Main results

* `PipeSys.readCall_cases` — a read of a pipe returns its available message,
  and fails only when there is none.
* `read_true`, `read_false` — what the two results of `mux_t::read` mean.
* `muxRead_refines` — `muxRead` of `ZeroMQ.Message.Fanout`, where the pipes of
  many muxes stand in one list, is this `read`.
* `fair_queueing` — over every sequence of calls `current` is valid, and a pipe
  that has a message available is read from before the others have been read
  from once more.
-/

namespace ZeroMQ

open ZeroMQ.Lib

variable {M : Type} {k : Nat} {b : Bool}

/-! ## One pipe -/

namespace PipeSys

/-- The messages the reader of a pipe finds, in order: it is awake, and they have
been flushed. -/
def flushed (s : PipeSys M) : List (RawMsg M) :=
  if s.pipe.alive then
    (s.pipe.pipe.slots.drop s.pipe.pipe.front).take
      (s.pipe.pipe.w - s.pipe.pipe.front)
  else []

/-- The messages available in a pipe, in the order `pipe_t::read` would return
them: those in front of any delimiter. -/
def available (s : PipeSys M) : List (RawMsg M) :=
  s.flushed.takeWhile fun msg => !msg.isDelimiter

variable {s s' : PipeSys M} {msg msg' : RawMsg M}

/-- The message has been read from the pipe, and nothing else. -/
structure Taken (msg : RawMsg M) (s s' : PipeSys M) : Prop where
  payload : msg.isDelimiter = false
  flushed : s.flushed = msg :: s'.flushed
  terminating : s'.pipe.readerTerminating = s.pipe.readerTerminating
  core : s.pipe.coreMsgs = msg :: s'.pipe.coreMsgs
  returned : s'.returned = s.returned ++ [msg]

theorem Taken.available (h : Taken msg s s') :
    s.available = msg :: s'.available := by
  rw [PipeSys.available, h.flushed, List.takeWhile_cons, h.payload]
  rfl

/-- Nothing has been read from the pipe, but for a delimiter. -/
structure Skipped (s s' : PipeSys M) : Prop where
  flushed : (s.flushed = [] ∧ s'.flushed = [] ∧
      s'.pipe.readerTerminating = s.pipe.readerTerminating) ∨
    s.flushed = .delimiter :: s'.flushed ∧ s'.pipe.readerTerminating = true
  core : s'.pipe.coreMsgs = s.pipe.coreMsgs ∨
    s.pipe.coreMsgs = .delimiter :: s'.pipe.coreMsgs
  returned : s'.returned = s.returned

theorem Skipped.available (h : Skipped s s') : s.available = [] := by
  rcases h.flushed with ⟨hnil, _⟩ | ⟨hdelimiter, _⟩
  · rw [PipeSys.available, hnil]
    rfl
  · rw [PipeSys.available, hdelimiter]
    rfl

/-- Taking the front message does not put the pipe to sleep. -/
theorem Step.pop_awake (h : Step s .pop s') :
    s'.pipe.alive = s.pipe.alive ∧ s'.pipe.pipe.w = s.pipe.pipe.w := by
  cases h with
  | popDelimiterAgain hr hl ht => exact ⟨rfl, rfl⟩
  | popDelimiter hr hl ht => exact ⟨rfl, rfl⟩
  | popQuiet hr hl hm hc | popReport hr hl hm hc =>
      obtain ⟨head, rfl⟩ := Pipe.countRead_eq hc
      exact ⟨rfl, rfl⟩

theorem flushed_pop (h : Step s .pop s') (ha : s.pipe.alive = true)
    (hlt : s.pipe.pipe.front < s.pipe.pipe.w)
    (hl : s.pipe.pipe.load = some msg) : s.flushed = msg :: s'.flushed := by
  obtain ⟨hframe, hfront⟩ := h.pop_spec
  obtain ⟨halive, hw⟩ := h.pop_awake
  obtain ⟨hlen, hget⟩ := List.getElem?_eq_some_iff.mp hl
  have hdrop : s.pipe.pipe.slots.drop s.pipe.pipe.front =
      msg :: s'.pipe.pipe.slots.drop s'.pipe.pipe.front := by
    rw [hframe.slots, hfront, ← hget]
    exact List.drop_eq_getElem_cons hlen
  have hcount : s.pipe.pipe.w - s.pipe.pipe.front =
      s'.pipe.pipe.w - s'.pipe.pipe.front + 1 := by
    rw [hw, hfront]
    omega
  rw [flushed, flushed, halive, if_pos ha, if_pos ha, hdrop, hcount,
    List.take_succ_cons]

/-- What the end of `read` does to the histories, and to the reader. -/
theorem takeFront_returned (h : s.takeFront = some (b, msg', s')) :
    s.pipe.pipe.load = some msg' ∧ b = !msg'.isDelimiter ∧
      s'.returned = (if b then s.returned ++ [msg'] else s.returned) ∧
      s'.pipe.readerTerminating = (!b || s.pipe.readerTerminating) := by
  obtain ⟨m, hload, h⟩ := Option.bind_eq_some_iff.mp h
  obtain ⟨t, hstep, h⟩ := Option.map_eq_some_iff.mp h
  cases h
  refine ⟨hload, rfl, ?_⟩
  cases Step.of_step hstep with
  | popDelimiterAgain hr hl ht | popDelimiter hr hl ht =>
      rw [hload, Option.some.injEq] at hl
      simp [hl, RawMsg.isDelimiter, ht]
  | popQuiet hr hl hm hc | popReport hr hl hm hc =>
      rw [hload, Option.some.injEq] at hl
      subst hl
      obtain ⟨head, rfl⟩ := Pipe.countRead_eq hc
      have hnot : msg'.isDelimiter = false := by
        simpa [← RawMsg.isDelimiter_iff] using hm
      simp [hnot]

/-- The front message of a pipe that is awake is taken, unless it is a
delimiter. -/
theorem takeFront_cases (h : s.takeFront = some (b, msg', s'))
    (hinv : SleepInv s) (ha : s.pipe.alive = true)
    (hlt : s.pipe.pipe.front < s.pipe.pipe.w) :
    if b then Taken msg' s s' else Skipped s s' := by
  obtain ⟨-, -, -, hcore⟩ := takeFront_spec h hinv
  obtain ⟨hload, hb, hret, hterm⟩ := takeFront_returned h
  have hflushed : s.flushed = msg' :: s'.flushed := by
    obtain ⟨m, -, h⟩ := Option.bind_eq_some_iff.mp h
    obtain ⟨t, hstep, h⟩ := Option.map_eq_some_iff.mp h
    cases h
    exact flushed_pop (.of_step hstep) ha hlt hload
  cases b with
  | true => exact ⟨by simpa using hb.symm, hflushed, hterm, hcore, hret⟩
  | false =>
      have hm : msg'.isDelimiter = true := by simpa using hb.symm
      rw [(RawMsg.isDelimiter_iff _).mp hm] at hcore hflushed
      exact ⟨.inr ⟨hflushed, hterm⟩, .inr hcore, hret⟩

/-- A call of `read` returns the available message, and fails only when there
is none. -/
theorem readCall_cases (h : s.readCall msg = some (b, msg', s'))
    (hinv : SleepInv s) : if b then Taken msg' s s' else Skipped s s' := by
  obtain ⟨s₁, hread, h⟩ := Option.bind_eq_some_iff.mp h
  have hst := Step.of_step hread
  have hinv₁ := hinv.step hst
  cases hst with
  | readDead hr hm hd ha =>
      simp only [hr] at h
      cases h
      have hnil : s.flushed = [] := by simp [flushed, ha]
      exact ⟨.inl ⟨hnil, hnil, rfl⟩, .inl rfl, rfl⟩
  | readPop hr hm hd ha hf =>
      have hlt : s.pipe.pipe.front < s.pipe.pipe.w := by
        obtain ⟨ri, hri, h1, h2⟩ := hinv.proto.rd
        have hne : ri ≠ s.pipe.pipe.front := by
          rintro rfl
          simp [Ypipe.prefetched, hri] at hf
        omega
      have hcases := takeFront_cases h hinv₁ ha hlt
      cases b with
      | true => exact { hcases with }
      | false => exact { hcases with }
  | readFetch hr hm hd ha hf =>
      obtain ⟨s₂, hfetch, h⟩ := Option.bind_eq_some_iff.mp h
      have hst₂ := Step.of_step hfetch
      have hinv₂ := hinv₁.step hst₂
      have hc : s.pipe.pipe.c = some s.pipe.pipe.w :=
        hinv.c_of_awake (by simp [Asleep, ha, hr])
      have hle := hinv.proto.front_le_w
      cases hst₂ with
      | fetchFound hr' hf' =>
          have hlt : s.pipe.pipe.front < s.pipe.pipe.w := by
            have hne : s.pipe.pipe.front ≠ s.pipe.pipe.w := by
              intro heq
              simp [Ypipe.fetch, hc, heq] at hf'
            omega
          have hcases := takeFront_cases h hinv₂ ha (by simpa using hlt)
          cases b with
          | true | false =>
              exact
                { hcases with
                  flushed := by simpa [flushed] using hcases.flushed
                  core := by simpa [Pipe.coreMsgs] using hcases.core }
      | fetchNone hr' hf' =>
          obtain ⟨s₃, hdie, h⟩ := Option.map_eq_some_iff.mp h
          cases h
          have heq : s.pipe.pipe.front = s.pipe.pipe.w := by
            by_contra hne
            simp [Ypipe.fetch, hc, hne] at hf'
          cases Step.of_step hdie with
          | die hr'' =>
              refine ⟨.inl ⟨?_, ?_, rfl⟩, .inl ?_, rfl⟩
              · simp [flushed, heq]
              · simp [flushed]
              · simp [Pipe.coreMsgs]

/-- `read` may be called and will not fail: the reader is between two calls,
the pipe is listed by a mux that has not been shut down, it still knows its
two ends, and its reporting period is not zero. -/
structure Ready (s : PipeSys M) : Prop where
  idle : s.reader = .idle
  inMux : s.inMux = true
  up : s.readerDown = false
  source : s.pipe.source = true
  destination : s.pipe.destination = true
  period : s.pipe.hwm = 0 ∨ s.pipe.period ≠ 0

theorem Ready.deliver (h : Ready s) (msg : RawMsg M) :
    ∃ s', s.deliver msg = some s' ∧ Ready s' := by
  unfold PipeSys.deliver
  by_cases hm : msg.isDelimiter = true
  · rw [if_pos hm, terminateReader]
    by_cases ht : s.pipe.readerTerminating = true
    · rw [if_pos ht]
      exact ⟨s, rfl, h⟩
    · rw [if_neg ht, if_pos (by simp [h.source, h.destination])]
      exact ⟨_, rfl, { h with }⟩
  · rw [if_neg hm]
    obtain ⟨head, report, hcount⟩ : ∃ head report,
        s.pipe.countRead = some ({ s.pipe with head := head }, report) := by
      unfold Pipe.countRead
      by_cases h0 : s.pipe.hwm = 0
      · exact ⟨s.pipe.head, false, by rw [if_pos h0]⟩
      · rw [if_neg h0, if_neg (h.period.resolve_left h0)]
        exact ⟨_, _, rfl⟩
    rw [hcount, Option.bind_some]
    cases report with
    | false => exact ⟨_, rfl, { h with }⟩
    | true =>
        dsimp only
        rw [if_pos rfl, if_pos (by simp [h.source, h.destination])]
        exact ⟨_, rfl, { h with }⟩

theorem Ready.takeFront (h : Ready { s with reader := .idle })
    (hr : s.reader = .pop) (hlt : s.pipe.pipe.front < s.pipe.pipe.back) :
    ∃ b msg' s', s.takeFront = some (b, msg', s') ∧ Ready s' := by
  have hload : s.pipe.pipe.load = some s.pipe.pipe.slots[s.pipe.pipe.front] :=
    List.getElem?_eq_getElem hlt
  have hready : Ready { s with
      pipe := { s.pipe with pipe := s.pipe.pipe.pop }
      reader := .idle } := { h with }
  obtain ⟨s', hs', hready'⟩ :=
    hready.deliver s.pipe.pipe.slots[s.pipe.pipe.front]
  have hstep : s.step .pop = some s' := by
    simp [PipeSys.step, writerStep, readerStep, hr, hload, hs']
  exact ⟨_, _, s', by
    rw [PipeSys.takeFront, hload, Option.bind_some, hstep, Option.map_some],
    hready'⟩

/-- A call of `read` on a ready pipe returns, and leaves it ready. -/
theorem Ready.readCall (h : Ready s) (hinv : SleepInv s) (msg : RawMsg M) :
    ∃ b msg' s', s.readCall msg = some (b, msg', s') ∧ Ready s' := by
  have hback := hinv.proto.wBack
  obtain ⟨ri, hri, h1, h2⟩ := hinv.proto.rd
  unfold PipeSys.readCall
  by_cases ha : s.pipe.alive = true
  · by_cases hf : s.pipe.pipe.prefetched = true
    · have hstep : s.step .read = some { s with reader := .pop } := by
        simp [PipeSys.step, writerStep, readerStep, h.idle, h.inMux, h.up, ha,
          hf]
      have hlt : s.pipe.pipe.front < s.pipe.pipe.back := by
        have hne : ri ≠ s.pipe.pipe.front := by
          rintro rfl
          simp [Ypipe.prefetched, hri] at hf
        omega
      rw [hstep, Option.bind_some]
      exact Ready.takeFront (s := { s with reader := .pop })
        { h with idle := rfl } rfl hlt
    · have hstep : s.step .read = some { s with reader := .fetch } := by
        simp [PipeSys.step, writerStep, readerStep, h.idle, h.inMux, h.up, ha,
          hf]
      have hc : s.pipe.pipe.c = some s.pipe.pipe.w :=
        hinv.c_of_awake (by simp [Asleep, ha, h.idle])
      rw [hstep, Option.bind_some]
      dsimp only
      by_cases heq : s.pipe.pipe.front = s.pipe.pipe.w
      · have hfetch : s.pipe.pipe.fetch false =
            (false, { s.pipe.pipe with r := s.pipe.pipe.c, c := none }) := by
          simp [Ypipe.fetch, hc, heq]
        simp only [PipeSys.step, writerStep, readerStep, hfetch, if_true,
          Option.none_or, Option.bind_some, Bool.false_eq_true, if_false,
          Option.map_some]
        exact ⟨_, _, _, rfl, { h with idle := rfl }⟩
      · have hfetch : s.pipe.pipe.fetch false =
            (true, { s.pipe.pipe with r := s.pipe.pipe.c }) := by
          simp [Ypipe.fetch, hc, heq, Ne.symm heq]
        simp only [PipeSys.step, writerStep, readerStep, hfetch, if_true,
          Option.none_or, Option.bind_some]
        refine Ready.takeFront { h with idle := rfl } rfl ?_
        show s.pipe.pipe.front < s.pipe.pipe.back
        omega
  · have hstep : s.step .read = some s := by
      simp [PipeSys.step, writerStep, readerStep, h.idle, h.inMux, h.up, ha]
    rw [hstep, Option.bind_some, h.idle]
    exact ⟨_, _, s, rfl, h⟩

end PipeSys

/-- The steps of a pipe's threads that are not part of a call of `read`. -/
def PipeAct.foreign : PipeAct M → Bool
  | .read => false
  | .fetch => false
  | .die => false
  | .pop => false
  | _ => true

/-! ## `mux_t` -/

/-- The members of `mux_t`. -/
structure MuxState (M : Type) where
  pipes : List (PipeSys M)
  current : Nat

namespace MuxState

/-- `receive_from`. -/
def receiveFrom (m : MuxState M) (p : PipeSys M) : MuxState M :=
  { m with pipes := m.pipes ++ [p] }

/-- The loop of `read`: its result, the message and the mux. -/
def readLoop : Nat → MuxState M → RawMsg M →
    Option (Bool × RawMsg M × MuxState M)
  | 0, m, msg => some (false, msg, m)
  | toProcess + 1, m, msg =>
      m.pipes[m.current]?.bind fun p =>
        (p.readCall msg).bind fun (retrieved, msg', p') =>
          let m' : MuxState M :=
            { pipes := m.pipes.set m.current p'
              current :=
                if m.current + 1 = m.pipes.length then 0 else m.current + 1 }
          if retrieved then some (true, msg', m')
          else readLoop toProcess m' msg'

/-- `read`; `zero` is the 0-byte message it initialises the output parameter
with when no message is available. -/
def read (zero : RawMsg M) (m : MuxState M) (msg : RawMsg M) :
    Option (Bool × RawMsg M × MuxState M) :=
  (m.readLoop m.pipes.length msg).map fun (retrieved, msg', m') =>
    if retrieved then (true, msg', m') else (false, zero, m')

/-- `release_pipe` of the pipe at `i`; it asserts that the pipe is listed. -/
def releasePipe (m : MuxState M) (i : Nat) : Option (MuxState M) :=
  if i < m.pipes.length then
    let pipes := m.pipes.eraseIdx i
    some
      { pipes := pipes
        current := if m.current = pipes.length then 0 else m.current }
  else none

/-- The invariant of a mux: `current` is a valid index, if there is one, and
the pipes keep to the sleep protocol. -/
structure Inv (m : MuxState M) : Prop where
  cursor : RingIndex m.pipes.length m.current
  sleep : ∀ p ∈ m.pipes, p.SleepInv

variable {m m' : MuxState M} {msg msg' zero : RawMsg M} {p p' : PipeSys M}

/-- Trying a pipe: it answers with a message. -/
def tryPipe (p : PipeSys M) (r : Option (RawMsg M)) (p' : PipeSys M) : Prop :=
  ∃ msg b msg', p.readCall msg = some (b, msg', p') ∧
    r = if b then some msg' else none

theorem tryPipe_some (h : tryPipe p (some msg) p')
    (hinv : p.SleepInv) : PipeSys.Taken msg p p' := by
  obtain ⟨old, b, msg', hread, hr⟩ := h
  have hcases := PipeSys.readCall_cases hread hinv
  cases b with
  | true =>
      cases hr
      exact hcases
  | false => cases hr

theorem tryPipe_none (h : tryPipe p none p')
    (hinv : p.SleepInv) : PipeSys.Skipped p p' := by
  obtain ⟨old, b, msg', hread, hr⟩ := h
  have hcases := PipeSys.readCall_cases hread hinv
  cases b with
  | true => cases hr
  | false => exact hcases

theorem tryPipe_sleep {r : Option (RawMsg M)} (h : tryPipe p r p')
    (hinv : p.SleepInv) : p'.SleepInv := by
  obtain ⟨old, b, msg', hread, -⟩ := h
  exact (PipeSys.readCall_spec hread hinv).1

/-- The loop of `read` is a search of the ring of pipes from `current` on. -/
theorem readLoop_scan (hc : m.current < m.pipes.length)
    (h : m.readLoop k msg = some (b, msg', m')) :
    ∃ p, Scan tryPipe k m.current m.pipes (if b then some msg' else none) p
        m'.pipes ∧
      m'.current = if b then (p + 1) % m.pipes.length else p := by
  induction k generalizing m msg with
  | zero =>
      cases h
      exact ⟨m'.current, .done _ _, rfl⟩
  | succ k ih =>
      rw [readLoop] at h
      obtain ⟨p, hp, h⟩ := Option.bind_eq_some_iff.mp h
      obtain ⟨⟨retrieved, msg₁, p'⟩, hread, h⟩ := Option.bind_eq_some_iff.mp h
      dsimp only at h
      rw [← ring_next hc] at h
      cases retrieved with
      | true =>
          cases h
          exact ⟨m.current, .hit hp ⟨msg, true, msg', hread, rfl⟩, rfl⟩
      | false =>
          obtain ⟨q, hscan, hcur⟩ := ih (by
            simpa using Nat.mod_lt _ (by omega)) h
          simp only [List.length_set] at hscan hcur
          exact ⟨q, .pass hp ⟨msg, false, msg₁, hread, rfl⟩ hscan, hcur⟩

/-- A call of `read` returned the message of the pipe `j` places from
`current`: that pipe lost its message, the pipes before it at most a
delimiter, and the pipes behind it were not touched. -/
structure ReadFrom (m : MuxState M) (j : Nat) (msg : RawMsg M)
    (m' : MuxState M) : Prop where
  lt : j < m.pipes.length
  length : m'.pipes.length = m.pipes.length
  current : m'.current = (m.current + j + 1) % m.pipes.length
  taken : ∃ p p', m.pipes[(m.current + j) % m.pipes.length]? = some p ∧
    m'.pipes[(m.current + j) % m.pipes.length]? = some p' ∧
    PipeSys.Taken msg p p'
  others : ∀ q < m.pipes.length, q ≠ (m.current + j) % m.pipes.length →
    ∃ p p', m.pipes[q]? = some p ∧ m'.pipes[q]? = some p' ∧
      if ringDist m.pipes.length m.current q < j then PipeSys.Skipped p p'
      else p' = p

/-- A call of `read` found no message in any pipe. -/
structure ReadNone (m m' : MuxState M) : Prop where
  length : m'.pipes.length = m.pipes.length
  current : m'.current = m.current
  skipped : ∀ q < m.pipes.length, ∃ p p', m.pipes[q]? = some p ∧
    m'.pipes[q]? = some p' ∧ PipeSys.Skipped p p'

theorem read_scan (hinv : m.Inv)
    (h : m.read zero msg = some (true, msg', m')) :
    ∃ p, Scan tryPipe m.pipes.length m.current m.pipes (some msg') p m'.pipes ∧
      m'.current = (p + 1) % m.pipes.length := by
  obtain ⟨⟨b, msg₁, m₁⟩, hloop, h⟩ := Option.map_eq_some_iff.mp h
  cases b with
  | false => cases h
  | true =>
      cases h
      by_cases hnil : m.pipes.length = 0
      · rw [hnil, readLoop] at hloop
        cases hloop
      · exact readLoop_scan (hinv.cursor.lt hnil) hloop

theorem read_true (hinv : m.Inv)
    (h : m.read zero msg = some (true, msg', m')) :
    ∃ j, ReadFrom m j msg' m' := by
  obtain ⟨pos, hscan, hcur⟩ := read_scan hinv h
  obtain ⟨j, hj, rfl, ⟨p, p', hp, hp', htry⟩, hothers⟩ :=
    hscan.found_cells (Nat.le_refl _)
  refine ⟨j, hj, hscan.length_eq, by simpa using hcur, ⟨p, p', hp, hp',
    tryPipe_some htry (hinv.sleep p (List.mem_of_getElem? hp))⟩, ?_⟩
  intro q hq hne
  obtain ⟨x, x', hx, hx', hcell⟩ := hothers q hq hne
  refine ⟨x, x', hx, hx', ?_⟩
  by_cases hd : ringDist m.pipes.length m.current q < j
  · rw [if_pos hd] at hcell ⊢
    exact tryPipe_none hcell (hinv.sleep x (List.mem_of_getElem? hx))
  · rwa [if_neg hd] at hcell ⊢

theorem read_false (hinv : m.Inv)
    (h : m.read zero msg = some (false, msg', m')) :
    msg' = zero ∧ ReadNone m m' := by
  obtain ⟨⟨b, msg₁, m₁⟩, hloop, h⟩ := Option.map_eq_some_iff.mp h
  cases b with
  | true => cases h
  | false =>
      cases h
      refine ⟨rfl, ?_⟩
      by_cases hnil : m.pipes.length = 0
      · rw [hnil, readLoop] at hloop
        cases hloop
        exact ⟨rfl, rfl, fun q hq => by omega⟩
      have hc := hinv.cursor.lt hnil
      obtain ⟨pos, hscan, hcur⟩ := readLoop_scan hc hloop
      obtain ⟨hpos, hlen, hall⟩ := hscan.missed_all hc
      refine ⟨hlen, by rw [hcur, ← hpos]; rfl, ?_⟩
      intro q hq
      obtain ⟨x, x', hx, hcell, hx'⟩ := hall q hq
      exact ⟨x, x', hx, hx',
        tryPipe_none hcell (hinv.sleep x (List.mem_of_getElem? hx))⟩

theorem readLoop_ready (hc : RingIndex m.pipes.length m.current)
    (hk : k ≤ m.pipes.length) (hsleep : ∀ p ∈ m.pipes, p.SleepInv)
    (hready : ∀ p ∈ m.pipes, p.Ready) (msg : RawMsg M) :
    ∃ b msg' m', m.readLoop k msg = some (b, msg', m') ∧
      ∀ p ∈ m'.pipes, p.Ready := by
  induction k generalizing m msg with
  | zero => exact ⟨false, msg, m, rfl, hready⟩
  | succ k ih =>
      have hlt := hc.lt (by omega)
      have hmem := List.getElem_mem hlt
      obtain ⟨retrieved, msg₁, p', hread, hp'⟩ :=
        (hready _ hmem).readCall (hsleep _ hmem) msg
      have hready' : ∀ p ∈ m.pipes.set m.current p', p.Ready :=
        forall_mem_set hready hp'
      have hsleep' : ∀ p ∈ m.pipes.set m.current p', p.SleepInv :=
        forall_mem_set hsleep (PipeSys.readCall_spec hread (hsleep _ hmem)).1
      rw [readLoop, List.getElem?_eq_getElem hlt, Option.bind_some, hread,
        Option.bind_some]
      dsimp only
      rw [← ring_next hlt]
      cases retrieved with
      | true => exact ⟨true, msg₁, _, rfl, hready'⟩
      | false =>
          refine ih ?_ ?_ hsleep' hready' msg₁
          · rw [List.length_set]
            exact .of_mod _ (by omega)
          · rw [List.length_set]
            omega

/-- `read` of a mux with ready pipes returns, and leaves them ready. -/
theorem read_ready (hinv : m.Inv) (hready : ∀ p ∈ m.pipes, p.Ready)
    (zero msg : RawMsg M) :
    ∃ b msg' m', m.read zero msg = some (b, msg', m') ∧
      ∀ p ∈ m'.pipes, p.Ready := by
  obtain ⟨b, msg', m', hloop, hready'⟩ :=
    readLoop_ready hinv.cursor (Nat.le_refl _) hinv.sleep hready msg
  rw [read, hloop, Option.map_some]
  cases b with
  | true => exact ⟨true, msg', m', rfl, hready'⟩
  | false => exact ⟨false, zero, m', rfl, hready'⟩

/-- The messages in the pipes' main memory. -/
def unread (m : MuxState M) : Nat :=
  (m.pipes.map fun p => p.pipe.coreMsgs.length).sum

/-- A message that is returned is in the pipes no more. -/
theorem unread_read (hinv : m.Inv)
    (h : m.read zero msg = some (true, msg', m')) : m'.unread < m.unread := by
  obtain ⟨pos, hscan, -⟩ := read_scan hinv h
  refine (hscan.measure_lt (I := PipeSys.SleepInv) ?_ hinv.sleep).2 (by simp)
  intro p r p' hp htry
  refine ⟨tryPipe_sleep htry hp, ?_⟩
  cases r with
  | none =>
      refine ⟨?_, fun hr => absurd rfl hr⟩
      rcases (tryPipe_none htry hp).core with hcore | hcore
      · rw [hcore]
      · simp [hcore]
  | some msg =>
      have hcore := (tryPipe_some htry hp).core
      simp [hcore]

/-! ## The invariant -/

theorem Inv.receiveFrom {p : PipeSys M} (hinv : m.Inv) (hp : p.SleepInv) :
    (m.receiveFrom p).Inv where
  cursor := by
    have hgrow := hinv.cursor.grow
    show RingIndex (m.pipes ++ [p]).length m.current
    rwa [List.length_append, List.length_singleton]
  sleep := by
    intro q hq
    rcases List.mem_append.mp hq with hq | hq
    · exact hinv.sleep q hq
    · rwa [List.mem_singleton.mp hq]

theorem Inv.read (hinv : m.Inv) (h : m.read zero msg = some (b, msg', m')) :
    m'.Inv ∧ m'.pipes.length = m.pipes.length := by
  obtain ⟨⟨b₁, msg₁, m₁⟩, hloop, heq⟩ := Option.map_eq_some_iff.mp h
  have hm : m₁ = m' := by
    cases b₁ <;> cases heq <;> rfl
  subst hm
  by_cases hnil : m.pipes.length = 0
  · rw [hnil, readLoop] at hloop
    cases hloop
    exact ⟨hinv, rfl⟩
  obtain ⟨pos, hscan, -⟩ := readLoop_scan (hinv.cursor.lt hnil) hloop
  have hlen := hscan.length_eq
  refine ⟨⟨?_, hscan.forall_cells (fun _ _ _ hx ht => tryPipe_sleep ht hx)
    hinv.sleep⟩, hlen⟩
  cases b with
  | true =>
      obtain ⟨j, hread⟩ := read_true hinv h
      rw [hlen, hread.current]
      exact .of_mod _ hnil
  | false =>
      obtain ⟨-, hread⟩ := read_false hinv h
      rw [hlen, hread.current]
      exact hinv.cursor

theorem Inv.releasePipe {i : Nat} (hinv : m.Inv)
    (h : m.releasePipe i = some m') : m'.Inv := by
  unfold MuxState.releasePipe at h
  split at h
  · next hi =>
      cases h
      refine ⟨?_, fun p hp => hinv.sleep p (List.mem_of_mem_eraseIdx hp)⟩
      have hlen : m.pipes.length = (m.pipes.eraseIdx i).length + 1 := by
        rw [List.length_eraseIdx_of_lt hi]
        omega
      have hcursor := hinv.cursor
      rw [hlen] at hcursor
      exact hcursor.shrink
  · cases h

/-- A pipe that has a message available is not passed over. -/
theorem ReadFrom.le_ringDist {m m' : MuxState M} {msg : RawMsg M} {j k : Nat}
    (h : m.ReadFrom j msg m') (hc : m.current < m.pipes.length)
    (hk : ∃ p, m.pipes[k]? = some p ∧ p.available ≠ []) :
    k < m.pipes.length ∧ j ≤ ringDist m.pipes.length m.current k := by
  obtain ⟨p, hp, havail⟩ := hk
  have hlt := (List.getElem?_eq_some_iff.mp hp).1
  refine ⟨hlt, ?_⟩
  by_contra hd
  have hne : k ≠ (m.current + j) % m.pipes.length := by
    rintro rfl
    rw [ringDist_add hc h.lt] at hd
    omega
  obtain ⟨x, x', hx, -, hskip⟩ := h.others k hlt hne
  rw [if_pos (by omega)] at hskip
  rw [hp, Option.some.injEq] at hx
  rw [← hx] at hskip
  exact havail hskip.available

end MuxState

/-! ## Muxes over one list of pipes -/

section Listed

variable {ids : List Nat} {links links' : List Route}

/-- The list `pipes` of a mux whose pipes are at the places `ids`. -/
def listed (ids : List Nat) (links : List Route) : List (PipeSys Handle) :=
  ids.filterMap fun k => links[k]?.map Route.sys

theorem listed_map_some (hval : ∀ k ∈ ids, k < links.length) :
    (listed ids links).map some = ids.map fun k => links[k]?.map Route.sys := by
  induction ids with
  | nil => rfl
  | cons k ids ih =>
      have hk := List.getElem?_eq_getElem (hval k List.mem_cons_self)
      have hrest := ih fun q hq => hval q (List.mem_cons_of_mem k hq)
      simp only [listed] at hrest
      simp [listed, hk, hrest]

theorem length_listed (hval : ∀ k ∈ ids, k < links.length) :
    (listed ids links).length = ids.length := by
  have hlen := congrArg List.length (listed_map_some hval)
  simpa using hlen

theorem getElem?_listed (hval : ∀ k ∈ ids, k < links.length) (c : Nat) :
    (listed ids links)[c]? =
      ids[c]?.bind fun k => links[k]?.map Route.sys := by
  have hget := congrArg (fun l => l[c]?) (listed_map_some hval)
  simp only [List.getElem?_map] at hget
  cases hi : ids[c]? with
  | none => simpa [hi] using hget
  | some k =>
      cases hc : (listed ids links)[c]? with
      | none => simp [hi, hc] at hget
      | some p => simpa [hi, hc] using hget

/-- A change to one link is a change to its place in the list. -/
theorem listed_set {c : Nat} {l : Route} (hval : ∀ k ∈ ids, k < links.length)
    (hnodup : ids.Nodup) (hc : ids[c]? = some k) :
    listed ids (links.set k l) = (listed ids links).set c l.sys := by
  obtain ⟨hlt, hk⟩ := List.getElem?_eq_some_iff.mp hc
  have hmem : k ∈ ids := hk ▸ List.getElem_mem hlt
  apply List.ext_getElem?
  intro q
  rw [getElem?_listed (by simpa using hval)]
  by_cases hq : c = q
  · subst hq
    rw [List.getElem?_set_self (by rwa [length_listed hval]), hc,
      Option.bind_some, List.getElem?_set_self (hval k hmem), Option.map_some]
  · rw [List.getElem?_set_ne hq, getElem?_listed hval]
    cases hi : ids[q]? with
    | none => rfl
    | some k' =>
        have hne : k ≠ k' := by
          rintro rfl
          obtain ⟨hq', hk'⟩ := List.getElem?_eq_some_iff.mp hi
          exact hq (hnodup.getElem_inj_iff.mp (hk.trans hk'.symm))
        rw [Option.bind_some, Option.bind_some, List.getElem?_set_ne hne]

/-- The loop over the pipes of the whole system is the loop over the mux's own
list. -/
theorem muxReadLoop_refines {n current current' : Nat} {msg msg' : RawMessage}
    (hval : ∀ k ∈ ids, k < links.length) (hnodup : ids.Nodup)
    (h : muxReadLoop ids n current msg links =
      some (b, current', msg', links')) :
    MuxState.readLoop n ⟨listed ids links, current⟩ msg =
      some (b, msg', ⟨listed ids links', current'⟩) := by
  induction n generalizing current msg links with
  | zero =>
      cases h
      rfl
  | succ n ih =>
      rw [muxReadLoop] at h
      obtain ⟨k, hc, h⟩ := Option.bind_eq_some_iff.mp h
      obtain ⟨l, hl, h⟩ := Option.bind_eq_some_iff.mp h
      obtain ⟨⟨retrieved, msg₁, sys⟩, hread, h⟩ :=
        Option.bind_eq_some_iff.mp h
      have hset := listed_set (l := { l with sys := sys }) hval hnodup hc
      rw [MuxState.readLoop]
      simp only [getElem?_listed hval, hc, hl, hread, Option.bind_some,
        Option.map_some, length_listed hval]
      rw [← hset]
      cases retrieved with
      | true =>
          cases h
          rfl
      | false => exact ih (by simpa using hval) h

/-- `muxRead` is `read` of the mux with the pipes at its places. -/
theorem muxRead_refines {m current current' : Nat} {msg msg' : RawMessage}
    {h h' : Heap}
    (hread : muxRead m current msg h links =
      some (b, current', msg', h', links')) :
    MuxState.read msg' ⟨listed (muxPipes m links) links, current⟩ msg =
      some (b, msg', ⟨listed (muxPipes m links) links', current'⟩) := by
  have hval : ∀ k ∈ muxPipes m links, k < links.length := by
    intro k hk
    exact List.mem_range.mp (List.mem_of_mem_filter hk)
  have hnodup : (muxPipes m links).Nodup := List.nodup_range.filter _
  obtain ⟨⟨b₁, c₁, msg₁, links₁⟩, hloop, heq⟩ :=
    Option.map_eq_some_iff.mp hread
  rw [← length_listed hval] at hloop
  rw [MuxState.read, muxReadLoop_refines hval hnodup hloop, Option.map_some]
  cases b₁ <;> cases heq <;> rfl

end Listed

/-! ## Sequences of calls -/

/-- A mux with the history of its reads: the places of the pipes they were
from. -/
structure MuxSys (M : Type) where
  mux : MuxState M
  served : List Nat

/-- The calls, and the steps of the pipes' threads between them.  A pipe is
attached after any run of its own. -/
inductive MuxAct (M : Type) where
  | receiveFrom (src dst : EngineLimits)
      (room : List (RawMsg M) → RawMsg M → Bool) (as : List (PipeAct M))
  | read (zero msg : RawMsg M)
  | releasePipe (i : Nat)
  | pipe (i : Nat) (a : PipeAct M)

namespace MuxSys

/-- No pipe is attached. -/
def start : MuxSys M := { mux := ⟨[], 0⟩, served := [] }

/-- One call, or one step of a pipe. -/
def step (s : MuxSys M) : MuxAct M → Option (MuxSys M)
  | .receiveFrom src dst room as =>
      (exec PipeSys.step Any (.start (Pipe.create src dst room)) as).map
        fun p => { s with mux := s.mux.receiveFrom p }
  | .read zero msg =>
      (s.mux.read zero msg).map fun (retrieved, _, m) =>
        { mux := m
          served :=
            if retrieved then
              -- `current` has been moved just past the pipe
              s.served ++
                [(m.current + m.pipes.length - 1) % m.pipes.length]
            else s.served }
  | .releasePipe i =>
      (s.mux.releasePipe i).map fun m => { s with mux := m }
  | .pipe i a =>
      if a.foreign then
        s.mux.pipes[i]?.bind fun p => (p.step a).map fun p' =>
          { s with mux := { s.mux with pipes := s.mux.pipes.set i p' } }
      else none

variable {s s' t : MuxSys M} {a : MuxAct M} {as : List (MuxAct M)}

theorem inv_step (hinv : s.mux.Inv) (hs : s.step a = some s') :
    s'.mux.Inv := by
  cases a with
  | receiveFrom src dst room as =>
      obtain ⟨p, hexec, rfl⟩ := Option.map_eq_some_iff.mp hs
      exact hinv.receiveFrom (.run (Run.of_exec hexec))
  | read zero msg =>
      obtain ⟨⟨b, msg', m⟩, hread, rfl⟩ := Option.map_eq_some_iff.mp hs
      exact (hinv.read hread).1
  | releasePipe i =>
      obtain ⟨m, hr, rfl⟩ := Option.map_eq_some_iff.mp hs
      exact hinv.releasePipe hr
  | pipe i a =>
      rw [step] at hs
      split at hs
      · obtain ⟨p, hp, hs⟩ := Option.bind_eq_some_iff.mp hs
        obtain ⟨p', hstep, rfl⟩ := Option.map_eq_some_iff.mp hs
        refine ⟨by simpa using hinv.cursor, forall_mem_set hinv.sleep ?_⟩
        exact (hinv.sleep p (List.mem_of_getElem? hp)).step (.of_step hstep)
      · cases hs

theorem inv_run (hrun : Run step Any (start : MuxSys M) as s) : s.mux.Inv :=
  hrun.invariant (fun _ _ _ hinv _ hs => inv_step hinv hs)
    ⟨.inr ⟨rfl, rfl⟩, by simp [start]⟩

/-- A call of `mux_t::read` from `s`, which leads to `t`: its result, the
message and the history. -/
inductive ReadStep (zero : RawMsg M) (s : MuxSys M) :
    Bool → RawMsg M → MuxSys M → Prop where
  | message {t : MuxSys M} {msg : RawMsg M} (j : Nat)
      (hfrom : s.mux.ReadFrom j msg t.mux)
      (hserved : t.served =
        s.served ++ [(s.mux.current + j) % s.mux.pipes.length]) :
      ReadStep zero s true msg t
  | nothing {t : MuxSys M} (hnone : s.mux.ReadNone t.mux)
      (hserved : t.served = s.served) : ReadStep zero s false zero t

theorem ReadStep.of_read {zero msg msg' : RawMsg M} {m : MuxState M}
    (hinv : s.mux.Inv) (hread : s.mux.read zero msg = some (b, msg', m)) :
    ∃ t, s.step (.read zero msg) = some t ∧ t.mux = m ∧
      ReadStep zero s b msg' t := by
  refine ⟨_, by rw [step, hread, Option.map_some], rfl, ?_⟩
  cases b with
  | false =>
      obtain ⟨rfl, hnone⟩ := MuxState.read_false hinv hread
      exact .nothing hnone rfl
  | true =>
      obtain ⟨j, hfrom⟩ := MuxState.read_true hinv hread
      have hpos := hfrom.lt
      refine .message j hfrom ?_
      show s.served ++ [(m.current + m.pipes.length - 1) % m.pipes.length] = _
      rw [hfrom.current, hfrom.length, ring_prev _ (by omega)]

theorem ReadStep.of_step {zero msg : RawMsg M} (hinv : s.mux.Inv)
    (hs : s.step (.read zero msg) = some t) :
    ∃ b msg', ReadStep zero s b msg' t := by
  obtain ⟨⟨b, msg', m⟩, hread, -⟩ := Option.map_eq_some_iff.mp hs
  obtain ⟨t', hs', -, hstep⟩ := ReadStep.of_read hinv hread
  rw [hs, Option.some.injEq] at hs'
  exact ⟨b, msg', hs' ▸ hstep⟩

/-! ## Fairness -/

/-- No pipe comes or goes, and the pipe at `k` has a message available at
every read. -/
def Steady (k : Nat) (s : MuxSys M) : MuxAct M → Prop
  | .read _ _ => ∃ p, s.mux.pipes[k]? = some p ∧ p.available ≠ []
  | .pipe _ _ => True
  | _ => False

instance (k : Nat) (s : MuxSys M) (a : MuxAct M) : Decidable (Steady k s a) :=
  match a with
  | .read _ _ => decidable_of_iff
      (s.mux.pipes[k]?.any (fun p => !p.available.isEmpty) = true) (by
        simp [Steady, Option.any_eq_true])
  | .pipe _ _ => .isTrue trivial
  | .receiveFrom _ _ _ _ => .isFalse id
  | .releasePipe _ => .isFalse id

/-- Since `s`, the pipe at `k` has been read from or has come closer with every
message. -/
def Served (k : Nat) (s t : MuxSys M) : Prop :=
  t.mux.pipes.length = s.mux.pipes.length ∧
    ∃ got, t.served = s.served ++ got ∧
      Waiting s.mux.pipes.length k s.mux.current got t.mux.current

theorem Served.step {u : MuxSys M} (h : Served k s t) (hinv : t.mux.Inv)
    (hok : Steady k t a) (hs : t.step a = some u) :
    Served k s u := by
  obtain ⟨hlen, got, hserved, hwait⟩ := h
  cases a with
  | receiveFrom src dst room as => exact hok.elim
  | releasePipe i => exact hok.elim
  | pipe i a =>
      rw [MuxSys.step] at hs
      split at hs
      · obtain ⟨p, hp, hs⟩ := Option.bind_eq_some_iff.mp hs
        obtain ⟨p', -, rfl⟩ := Option.map_eq_some_iff.mp hs
        exact ⟨by simpa using hlen, got, hserved, hwait⟩
      · cases hs
  | read zero msg =>
      obtain ⟨b, msg', hread⟩ := ReadStep.of_step hinv hs
      cases hread with
      | nothing hnone hsame =>
          exact ⟨hnone.length.trans hlen, got, hsame.trans hserved,
            hnone.current ▸ hwait⟩
      | message j hfrom hmore =>
          have hc := hinv.cursor.lt (by have := hfrom.lt; omega)
          obtain ⟨hk, hle⟩ := hfrom.le_ringDist hc hok
          rw [hlen] at hc hk hle hmore
          refine ⟨hfrom.length.trans hlen,
            got ++ [(t.mux.current + j) % s.mux.pipes.length], ?_, ?_⟩
          · rw [hmore, hserved, List.append_assoc]
          · rw [hfrom.current, hlen]
            exact hwait.turn hc hk hle

end MuxSys

open MuxSys in
/-- Fair queueing.  After every sequence of calls `current` is a valid index
when there is a pipe.  A `read` of pipes that are ready to be read returns;
with false, no pipe had a message available; with true, the message was at
the head of one pipe, and the other pipes have lost nothing but delimiters.
While no pipe comes or goes, a pipe that has a message available at every
read is read from within as many messages as there are pipes. -/
theorem fair_queueing {as : List (MuxAct M)} {s : MuxSys M}
    (hrun : Run MuxSys.step Any .start as s) :
    (s.mux.pipes ≠ [] → s.mux.current < s.mux.pipes.length) ∧
    (∀ zero msg b msg' m', s.mux.read zero msg = some (b, msg', m') →
      ∃ t, s.step (.read zero msg) = some t ∧ t.mux = m' ∧
        ReadStep zero s b msg' t) ∧
    (∀ zero msg, (∀ p ∈ s.mux.pipes, p.Ready) →
      (s.mux.read zero msg).isSome = true) ∧
    (∀ k < s.mux.pipes.length, ∀ bs t, Run MuxSys.step (Steady k) s bs t →
      s.served.length + s.mux.pipes.length ≤ t.served.length →
      ∃ got, t.served = s.served ++ got ∧ k ∈ got) := by
  have hinv := inv_run hrun
  refine ⟨fun hne => hinv.cursor.lt (by simpa using hne), ?_, ?_, ?_⟩
  · intro zero msg b msg' m' hread
    exact ReadStep.of_read hinv hread
  · intro zero msg hready
    obtain ⟨b, msg', m', hread, -⟩ :=
      MuxState.read_ready hinv hready zero msg
    rw [hread]
    rfl
  · intro k hk bs t hsteady hlen
    have hfinal : Served k s t ∧ t.mux.Inv :=
      hsteady.invariant (I := fun u => Served k s u ∧ u.mux.Inv)
        (fun _ _ _ h hok hs => ⟨h.1.step h.2 hok hs, inv_step h.2 hs⟩)
        ⟨⟨rfl, [], by simp, .start _ _ _⟩, hinv⟩
    obtain ⟨⟨-, got, hserved, hwait⟩, -⟩ := hfinal
    rw [hserved, List.length_append] at hlen
    exact ⟨got, hserved,
      hwait.served (hinv.cursor.lt (by omega)) hk (by omega)⟩

/-- A new pipe into which `n` messages have been flushed. -/
def attachFilled (n : Nat) : MuxAct Nat :=
  .receiveFrom ⟨5, 2, 0⟩ ⟨0, 0, 0⟩ (fun _ _ => false)
    ((List.range n).map (fun i => .write (.data i)) ++ [.flush, .cas, .resume])

/-- Two pipes with messages and one without: the second pipe is among the
three that are read from next. -/
theorem fair_queueing_three_pipes :
    ∃ (s t : MuxSys Nat) (got : List Nat),
      Run MuxSys.step Any .start
        [attachFilled 2, attachFilled 3, attachFilled 0] s ∧
      Run MuxSys.step (MuxSys.Steady 1) s
        (List.replicate 3 (.read .gap .gap)) t ∧
      t.served = s.served ++ got ∧ 1 ∈ got := by
  have hexec : (exec MuxSys.step Any (.start : MuxSys Nat)
      [attachFilled 2, attachFilled 3, attachFilled 0]).any
      (fun s => decide (s.mux.pipes.length = 3 ∧
        (exec MuxSys.step (MuxSys.Steady 1) s
          (List.replicate 3 (.read .gap .gap))).any
          (fun t => decide (t.served.length = s.served.length + 3)) = true)) =
      true := by
    decide +kernel
  obtain ⟨s, hrun, hpipes, hs⟩ := Run.of_exec_any hexec
  obtain ⟨t, hsteady, hlen⟩ := Run.of_exec_any hs
  obtain ⟨-, -, -, hfair⟩ := fair_queueing hrun
  obtain ⟨got, hserved, hmem⟩ := hfair 1 (by omega) _ t hsteady (by omega)
  exact ⟨s, t, got, hrun, hsteady, hserved, hmem⟩

end ZeroMQ
