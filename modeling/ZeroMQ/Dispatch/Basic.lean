import Mathlib.Logic.Function.Basic
import ZeroMQ.Lib.Run
import ZeroMQ.Queue.Ypipe

/-!
# Command passing: `dispatcher_t` and `ypollset_t`

Every ordered pair of threads has a command pipe, a `ypipe_t` with `D` set that
is created dead.  The receiving thread owns a `ypollset_t`: a word of signal
bits, one for each sender, whose top bit says that the receiver is about to
wait on the semaphore.  `dispatcher_t::write` (`libzmq/zmq/dispatcher.hpp`)
stores the command, flushes the pipe and raises the sender's bit when the flush
reports a sleeping reader.  `ypollset_t::poll` (`libzmq/zmq/ypollset.hpp`) takes
the bits and `api_thread_t::process_commands` (`libzmq/api_thread.cpp`) drains
the pipes whose bits it got.

The model has one receiving thread and `n` senders, numbered by their thread
ids.  Each access to a shared word is a step of its own, so a run is an
interleaving of the threads.  The operations of `atomic_bitmap_t` are atomic.

## Main definitions

* `btsr`, `izte`, `xchg` — the operations of `atomic_bitmap_t`.
* `Dispatcher` — the command pipes to one receiver, its pollset, and the place
  where each thread is in the code.
* `Dispatcher.step` — one step of one thread.
* `Dispatcher.Step` — the same as a relation, one constructor for each branch of
  the source; `SenderStep` and `ReadStep` are the steps at one pipe.
-/

namespace ZeroMQ

/-! ## `atomic_bitmap_t` -/

section Bitmap

variable {width : Nat}

/-- `btsr`: set one bit and reset another; the result is the old value of the
bit that was reset. -/
def btsr (value : BitVec width) (setIndex resetIndex : Nat) :
    Bool × BitVec width :=
  (value.getLsbD resetIndex,
    (value ||| BitVec.twoPow width setIndex) &&&
      ~~~ BitVec.twoPow width resetIndex)

/-- `izte`: store the first argument if the value is zero and the second one
otherwise; the result is the old value. -/
def izte (value thenVal elseVal : BitVec width) :
    BitVec width × BitVec width :=
  (value, if value = 0 then thenVal else elseVal)

/-- `xchg`: store the argument; the result is the old value. -/
def xchg (value newVal : BitVec width) : BitVec width × BitVec width :=
  (value, newVal)

theorem getLsbD_btsr (value : BitVec width) {i r j : Nat} (hj : j < width) :
    (btsr value i r).2.getLsbD j =
      ((value.getLsbD j || decide (j = i)) && decide (j ≠ r)) := by
  by_cases hi : i = j <;> by_cases hr : r = j <;>
    simp [btsr, hj, hi, hr, eq_comm]

theorem ne_zero_iff_getLsbD (value : BitVec width) :
    value ≠ 0 ↔ ∃ j, value.getLsbD j = true := by
  constructor
  · intro hne
    by_contra hnone
    apply hne
    apply BitVec.eq_of_getLsbD_eq
    intro j _
    have hj : ¬ value.getLsbD j = true := fun h => hnone ⟨j, h⟩
    simpa using hj
  · rintro ⟨j, hj⟩ rfl
    simp at hj

end Bitmap

/-! ## The threads -/

/-- Where a sender is in `dispatcher_t::write`: outside, before the `cas` or
the `set` of `flush`, before the `btsr` of `signal`, before the post. -/
inductive SenderPc where
  | idle
  | flush
  | set
  | signal
  | post
  deriving DecidableEq, Repr

/-- Where the receiver is in `ypipe_t::read` of the pipe it drains: before the
call, before the prefetch, before it takes the value. -/
inductive DrainStage where
  | read
  | fetch
  | pop
  deriving DecidableEq, Repr

/-- Where the receiver is: outside, before the `izte` of `poll`, in the
semaphore's `wait`, before the `xchg` of `poll`, at the head of the loop of
`process_commands`, or draining one pipe. -/
inductive ReceiverPc (width : Nat) where
  | idle
  | izte
  | wait
  | xchg
  | scan (signals : BitVec width) (i : Nat)
  | drain (signals : BitVec width) (i : Nat) (stage : DrainStage)
  deriving DecidableEq, Repr

/-- The steps of the threads.  `write i v` starts `dispatcher_t::write` in
sender `i`, `poll` and `check` start the calls of the receiver; `sender i` and
`receiver` take the next step of a thread that is inside a call. -/
inductive DispatcherAct (T : Type) where
  | write (i : Nat) (value : T)
  | sender (i : Nat)
  | poll
  | check
  | receiver
  deriving DecidableEq, Repr

/-- The command pipes to one receiver, its pollset with the wait bit
`waitSignal`, and the threads.  `processed i` is the history of the values the
receiver took from pipe `i`, `none` being the contents of a slot never
written; the commands sent by `i` are the slots of `pipes i`. -/
structure Dispatcher (T : Type) (waitSignal : Nat) where
  pipes : Nat → Ypipe T
  senders : Nat → SenderPc
  bits : BitVec (waitSignal + 1)
  sem : Nat
  receiver : ReceiverPc (waitSignal + 1)
  processed : Nat → List (Option T)

namespace Dispatcher

open ZeroMQ.Lib

variable {T : Type} {waitSignal : Nat} {pc : ReceiverPc (waitSignal + 1)}

/-- A new dispatcher: dead pipes, no signals, the semaphore not posted. -/
def start : Dispatcher T waitSignal :=
  { pipes := fun _ => Ypipe.create true
    senders := fun _ => .idle
    bits := 0
    sem := 0
    receiver := .idle
    processed := fun _ => [] }

/-- Sender `i` moves to `pc` and leaves its pipe as `y`. -/
def setSender (s : Dispatcher T waitSignal) (i : Nat) (y : Ypipe T)
    (pc : SenderPc) : Dispatcher T waitSignal :=
  { s with
    pipes := Function.update s.pipes i y
    senders := Function.update s.senders i pc }

/-- The receiver leaves pipe `i` as `y` and moves to `pc`. -/
def setReceiver (s : Dispatcher T waitSignal) (i : Nat) (y : Ypipe T)
    (pc : ReceiverPc (waitSignal + 1)) : Dispatcher T waitSignal :=
  { s with
    pipes := Function.update s.pipes i y
    receiver := pc }

/-- A step of sender `i` inside `dispatcher_t::write`. -/
def senderStep (s : Dispatcher T waitSignal) (i : Nat) :
    SenderPc → Option (Dispatcher T waitSignal)
  | .idle => none
  | .flush =>
      if (s.pipes i).unflushed then
        match (s.pipes i).flushCas with
        | (true, y) => some (s.setSender i y .idle)
        | (false, y) => some (s.setSender i y .set)
      else some (s.setSender i (s.pipes i) .idle)
  | .set => some (s.setSender i (s.pipes i).flushSet .signal)
  | .signal =>
      match btsr s.bits i waitSignal with
      | (wasWaiting, bits) =>
          some
            { s.setSender i (s.pipes i) (if wasWaiting then .post else .idle)
              with bits := bits }
  | .post => some { s.setSender i (s.pipes i) .idle with sem := s.sem + 1 }

/-- A bitmap operation has left `bits` and returned `result` to the receiver,
which goes on to `pc` when that is zero and processes commands otherwise. -/
def received (s : Dispatcher T waitSignal)
    (op : BitVec (waitSignal + 1) × BitVec (waitSignal + 1))
    (pc : ReceiverPc (waitSignal + 1)) : Dispatcher T waitSignal :=
  { s with
    bits := op.2
    receiver := if op.1 = 0 then pc else .scan op.1 0 }

theorem received_of_eq {s : Dispatcher T waitSignal}
    {op : BitVec (waitSignal + 1) × BitVec (waitSignal + 1)} (h : op.1 = 0) :
    s.received op pc = { s with bits := op.2, receiver := pc } := by
  rw [received, if_pos h]

theorem received_of_ne {s : Dispatcher T waitSignal}
    {op : BitVec (waitSignal + 1) × BitVec (waitSignal + 1)} (h : op.1 ≠ 0) :
    s.received op pc = { s with bits := op.2, receiver := .scan op.1 0 } := by
  rw [received, if_neg h]

/-- A step of `ypipe_t::read` on pipe `i`; when it returns false the loop of
`process_commands` moves on to the next thread. -/
def drainStep (s : Dispatcher T waitSignal)
    (signals : BitVec (waitSignal + 1)) (i : Nat) :
    DrainStage → Dispatcher T waitSignal
  | .read =>
      if (s.pipes i).prefetched then
        s.setReceiver i (s.pipes i) (.drain signals i .pop)
      else if (s.pipes i).stop then
        s.setReceiver i (s.pipes i).stopRead (.scan signals (i + 1))
      else s.setReceiver i (s.pipes i) (.drain signals i .fetch)
  | .fetch =>
      match (s.pipes i).fetch true with
      | (true, y) => s.setReceiver i y (.drain signals i .pop)
      | (false, y) => s.setReceiver i y (.scan signals (i + 1))
  | .pop =>
      { s.setReceiver i (s.pipes i).pop (.drain signals i .read) with
        processed :=
          Function.update s.processed i
            (s.processed i ++ [(s.pipes i).load]) }

/-- A step of the receiver inside `poll` or `process_commands`; `none` when it
is outside, or waits for a semaphore that has not been posted. -/
def receiverStep (n : Nat) (s : Dispatcher T waitSignal) :
    ReceiverPc (waitSignal + 1) → Option (Dispatcher T waitSignal)
  | .idle => none
  | .izte =>
      some (s.received (izte s.bits (BitVec.twoPow _ waitSignal) 0) .wait)
  | .wait =>
      if 0 < s.sem then some { s with sem := s.sem - 1, receiver := .xchg }
      else none
  | .xchg => some (s.received (xchg s.bits 0) .izte)
  | .scan signals i =>
      if i = n then some { s with receiver := .idle }
      else if signals.getLsbD i then
        some { s with receiver := .drain signals i .read }
      else some { s with receiver := .scan signals (i + 1) }
  | .drain signals i stage => some (s.drainStep signals i stage)

/-- One step of one of the `n` senders or of the receiver. -/
def step (n : Nat) (s : Dispatcher T waitSignal) :
    DispatcherAct T → Option (Dispatcher T waitSignal)
  | .write i value =>
      if i < n ∧ s.senders i = .idle then
        some (s.setSender i ((s.pipes i).write value) .flush)
      else none
  | .sender i => if i < n then s.senderStep i (s.senders i) else none
  | .poll =>
      if s.receiver = .idle then some { s with receiver := .izte } else none
  | .check =>
      if s.receiver = .idle then some (s.received (xchg s.bits 0) .idle)
      else none
  | .receiver => s.receiverStep n s.receiver

/-- The steps of sender `i`, one constructor for each way through the code, with
what the thread has tested on the way. -/
inductive SenderStep (i : Nat) (s : Dispatcher T waitSignal) :
    DispatcherAct T → Dispatcher T waitSignal → Prop where
  | write {value : T} (hpc : s.senders i = .idle) :
      SenderStep i s (.write i value)
        (s.setSender i ((s.pipes i).write value) .flush)
  | casNothing (hpc : s.senders i = .flush)
      (hu : (s.pipes i).unflushed = false) :
      SenderStep i s (.sender i) (s.setSender i (s.pipes i) .idle)
  | casFound (hpc : s.senders i = .flush)
      (hc : (s.pipes i).c = some (s.pipes i).w) :
      SenderStep i s (.sender i)
        (s.setSender i
          { s.pipes i with c := some (s.pipes i).back, w := (s.pipes i).back }
          .idle)
  | casNull (hpc : s.senders i = .flush)
      (hc : (s.pipes i).c ≠ some (s.pipes i).w) :
      SenderStep i s (.sender i) (s.setSender i (s.pipes i) .set)
  | set (hpc : s.senders i = .set) :
      SenderStep i s (.sender i) (s.setSender i (s.pipes i).flushSet .signal)
  | signal (hpc : s.senders i = .signal) :
      SenderStep i s (.sender i)
        { s.setSender i (s.pipes i)
            (if s.bits.getLsbD waitSignal then .post else .idle) with
          bits := (btsr s.bits i waitSignal).2 }
  | post (hpc : s.senders i = .post) :
      SenderStep i s (.sender i)
        { s.setSender i (s.pipes i) .idle with sem := s.sem + 1 }

/-- The steps of the receiver from the moment it comes to pipe `i`. -/
inductive ReadStep (i : Nat) (s : Dispatcher T waitSignal) :
    Dispatcher T waitSignal → Prop where
  | wake {signals : BitVec (waitSignal + 1)}
      (hr : s.receiver = .scan signals i) (hbit : signals.getLsbD i = true) :
      ReadStep i s { s with receiver := .drain signals i .read }
  | readPop {signals : BitVec (waitSignal + 1)}
      (hr : s.receiver = .drain signals i .read)
      (hp : (s.pipes i).prefetched = true) :
      ReadStep i s (s.setReceiver i (s.pipes i) (.drain signals i .pop))
  | readStop {signals : BitVec (waitSignal + 1)}
      (hr : s.receiver = .drain signals i .read)
      (hp : (s.pipes i).prefetched = false) (hs : (s.pipes i).stop = true) :
      ReadStep i s
        (s.setReceiver i (s.pipes i).stopRead (.scan signals (i + 1)))
  | readFetch {signals : BitVec (waitSignal + 1)}
      (hr : s.receiver = .drain signals i .read)
      (hp : (s.pipes i).prefetched = false) (hs : (s.pipes i).stop = false) :
      ReadStep i s (s.setReceiver i (s.pipes i) (.drain signals i .fetch))
  | fetchFound {signals : BitVec (waitSignal + 1)}
      (hr : s.receiver = .drain signals i .fetch)
      (hf : ((s.pipes i).fetch true).1 = true) :
      ReadStep i s
        (s.setReceiver i ((s.pipes i).fetch true).2 (.drain signals i .pop))
  | fetchNone {signals : BitVec (waitSignal + 1)}
      (hr : s.receiver = .drain signals i .fetch)
      (hf : ((s.pipes i).fetch true).1 = false) :
      ReadStep i s
        (s.setReceiver i ((s.pipes i).fetch true).2 (.scan signals (i + 1)))
  | pop {signals : BitVec (waitSignal + 1)}
      (hr : s.receiver = .drain signals i .pop) :
      ReadStep i s
        { s.setReceiver i (s.pipes i).pop (.drain signals i .read) with
          processed :=
            Function.update s.processed i
              (s.processed i ++ [(s.pipes i).load]) }

/-- The steps of all threads: those that concern one pipe, and those of the
receiver between the pipes.  `takeSignals` is every bitmap operation of the
receiver that returns some signals. -/
inductive Step (n : Nat) (s : Dispatcher T waitSignal) :
    DispatcherAct T → Dispatcher T waitSignal → Prop where
  | sender {i : Nat} {a : DispatcherAct T} {s' : Dispatcher T waitSignal}
      (hi : i < n) (h : SenderStep i s a s') : Step n s a s'
  | read {i : Nat} {s' : Dispatcher T waitSignal} (h : ReadStep i s s') :
      Step n s .receiver s'
  | poll (hr : s.receiver = .idle) :
      Step n s .poll { s with receiver := .izte }
  | izteZero (hr : s.receiver = .izte) (hz : s.bits = 0) :
      Step n s .receiver
        { s with bits := BitVec.twoPow _ waitSignal, receiver := .wait }
  | takeSignals {a : DispatcherAct T}
      (hr : a = .receiver ∧ (s.receiver = .izte ∨ s.receiver = .xchg) ∨
        a = .check ∧ s.receiver = .idle)
      (hz : s.bits ≠ 0) :
      Step n s a { s with bits := 0, receiver := .scan s.bits 0 }
  | wait (hr : s.receiver = .wait) (hsem : 0 < s.sem) :
      Step n s .receiver { s with sem := s.sem - 1, receiver := .xchg }
  | xchgZero (hr : s.receiver = .xchg) (hz : s.bits = 0) :
      Step n s .receiver { s with bits := 0, receiver := .izte }
  | checkZero (hr : s.receiver = .idle) (hz : s.bits = 0) :
      Step n s .check { s with bits := 0, receiver := .idle }
  | scanEnd {signals : BitVec (waitSignal + 1)}
      (hr : s.receiver = .scan signals n) :
      Step n s .receiver { s with receiver := .idle }
  | scanSkip {signals : BitVec (waitSignal + 1)} {i : Nat}
      (hr : s.receiver = .scan signals i) (hbit : signals.getLsbD i = false) :
      Step n s .receiver { s with receiver := .scan signals (i + 1) }

variable {n : Nat} {s s' : Dispatcher T waitSignal}

theorem SenderStep.of_senderStep {i : Nat} {pc : SenderPc}
    (hpc : s.senders i = pc) (h : s.senderStep i pc = some s') :
    SenderStep i s (.sender i) s' := by
  cases pc with
  | idle => cases h
  | flush =>
      rw [senderStep] at h
      split at h
      · by_cases hc : (s.pipes i).c = some (s.pipes i).w
        · rw [Ypipe.flushCas_of_eq hc] at h
          cases h
          exact .casFound hpc hc
        · rw [Ypipe.flushCas_of_ne hc] at h
          cases h
          exact .casNull hpc hc
      · next hu =>
          cases h
          exact .casNothing hpc (by simpa using hu)
  | set =>
      cases h
      exact .set hpc
  | signal =>
      cases h
      exact .signal hpc
  | post =>
      cases h
      exact .post hpc

theorem ReadStep.of_drainStep {signals : BitVec (waitSignal + 1)} {i : Nat}
    {stage : DrainStage} (hr : s.receiver = .drain signals i stage) :
    ReadStep i s (s.drainStep signals i stage) := by
  cases stage with
  | read =>
      rw [drainStep]
      split
      · next hp => exact .readPop hr hp
      · next hp =>
          have hp : (s.pipes i).prefetched = false := by simpa using hp
          split
          · next hs => exact .readStop hr hp hs
          · next hs => exact .readFetch hr hp (by simpa using hs)
  | fetch =>
      rw [drainStep]
      split
      · next y hy =>
          have hstep := ReadStep.fetchFound hr (by rw [hy])
          rw [hy] at hstep
          exact hstep
      · next y hy =>
          have hstep := ReadStep.fetchNone hr (by rw [hy])
          rw [hy] at hstep
          exact hstep
  | pop => exact .pop hr

theorem Step.of_receiverStep (hr : s.receiver = pc)
    (h : s.receiverStep n pc = some s') : Step n s .receiver s' := by
  cases pc with
  | idle => cases h
  | izte =>
      cases h
      by_cases hz : s.bits = 0
      · rw [received_of_eq hz, ZeroMQ.izte, if_pos hz]
        exact .izteZero hr hz
      · rw [received_of_ne hz, ZeroMQ.izte, if_neg hz]
        exact .takeSignals (.inl ⟨rfl, .inl hr⟩) hz
  | wait =>
      rw [receiverStep] at h
      split at h
      · next hsem =>
          cases h
          exact .wait hr hsem
      · cases h
  | xchg =>
      cases h
      by_cases hz : s.bits = 0
      · rw [received_of_eq hz]
        exact .xchgZero hr hz
      · rw [received_of_ne hz]
        exact .takeSignals (.inl ⟨rfl, .inr hr⟩) hz
  | scan signals i =>
      rw [receiverStep] at h
      split at h
      · next hi =>
          cases h
          exact .scanEnd (hi ▸ hr)
      · split at h
        · next hbit =>
            cases h
            exact .read (.wake hr hbit)
        · next hbit =>
            cases h
            exact .scanSkip hr (by simpa using hbit)
  | drain signals i stage =>
      cases h
      exact .read (.of_drainStep hr)

theorem Step.of_step {a : DispatcherAct T} (h : step n s a = some s') :
    Step n s a s' := by
  cases a with
  | write i value =>
      rw [Dispatcher.step] at h
      split at h
      · next hw =>
          cases h
          exact .sender hw.1 (.write hw.2)
      · cases h
  | sender i =>
      rw [Dispatcher.step] at h
      split at h
      · next hi => exact .sender hi (.of_senderStep rfl h)
      · cases h
  | poll =>
      rw [Dispatcher.step] at h
      split at h
      · next hr =>
          cases h
          exact .poll hr
      · cases h
  | check =>
      rw [Dispatcher.step] at h
      split at h
      · next hr =>
          cases h
          by_cases hz : s.bits = 0
          · rw [received_of_eq hz]
            exact .checkZero hr hz
          · rw [received_of_ne hz]
            exact .takeSignals (.inr ⟨rfl, hr⟩) hz
      · cases h
  | receiver => exact .of_receiverStep rfl h

end Dispatcher

end ZeroMQ
