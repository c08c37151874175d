import ZeroMQ.Dispatch.Wakeup
import ZeroMQ.Lib.TwoPow

/-!
# Commands to an I/O thread

An I/O thread waits for its sockets, so its signaler is a `ysocketpair_t`
(`libzmq/ysocketpair.cpp`) with a file descriptor: an eventfd, a 64-bit counter
that `signal` adds `2 ^ signal` to and `check` reads and resets.  The poller
(`libzmq/zmq/poller.hpp`) checks it when the descriptor is readable, and drains
the command pipes of the threads whose bits it got.

Adding is not setting a bit: the same signal sent twice carries into the bit of
another thread.  What keeps the signals apart is the sleep protocol of the
command pipes.  The proof does not go through that protocol again.  The poller
with its counter refines the receiver of `Dispatch.Basic`, whose bits are those
of the counter; there a sender that is about to signal finds its bit not set.

The addition and the read with reset are atomic.

## Main definitions

* `PollerSys` — the command pipes to one I/O thread, its eventfd, the threads.
* `PollerSys.step` — one step of one thread.
* `PollerSys.toDispatcher` — the poller as a receiver with a bitmap.

## Main results

* `PollerSys.CounterInv.refines` — every step is a step of the dispatcher.
* `PollerSys.signals_not_confused` — the counter is a set of threads, in every
  state of every interleaving.
-/

namespace ZeroMQ

open ZeroMQ.Lib

variable {T : Type}

/-- The command pipes to one I/O thread, its eventfd, and the threads.  The
members of the signaler and the poller are `counter`, `receiver` (where the
poller is in `process_event`) and `stopped` (the main loop has ended).  `sent`
is the history of the signals since the last `check`, `got` that of the signals
before it, back to the `check` before.  `failed` tells that an assertion in
`signal` has failed. -/
structure PollerSys (T : Type) where
  pipes : Nat → Ypipe T
  senders : Nat → SenderPc
  counter : Nat
  receiver : ReceiverPc 64
  stopped : Bool
  processed : Nat → List (Option T)
  sent : List Nat
  got : List Nat
  failed : Bool

/-- The steps of the threads: a sender starts `dispatcher_t::write`, goes on
with it, the poller finds its eventfd readable and calls `check`, or goes on in
`process_event`. -/
inductive PollerAct (T : Type) where
  | write (i : Nat) (value : T)
  | sender (i : Nat)
  | check
  | receiver
  deriving DecidableEq, Repr

namespace PollerSys

/-- The greatest value of an eventfd. -/
def eventfdMax : Nat := 2 ^ 64 - 2

/-- A new dispatcher: dead pipes, no signals. -/
def start : PollerSys T :=
  { pipes := fun _ => Ypipe.create true
    senders := fun _ => .idle
    counter := 0
    receiver := .idle
    stopped := false
    processed := fun _ => []
    sent := []
    got := []
    failed := false }

/-- Sender `i` moves to `pc` and leaves its pipe as `y`. -/
def setSender (s : PollerSys T) (i : Nat) (y : Ypipe T) (pc : SenderPc) :
    PollerSys T :=
  { s with
    pipes := Function.update s.pipes i y
    senders := Function.update s.senders i pc }

/-- The poller leaves pipe `i` as `y` and moves to `pc`. -/
def setReceiver (s : PollerSys T) (i : Nat) (y : Ypipe T)
    (pc : ReceiverPc 64) : PollerSys T :=
  { s with
    pipes := Function.update s.pipes i y
    receiver := pc }

/-- `ysocketpair_t::signal`: a write that would take the counter beyond its
maximum fails. -/
def signal (s : PollerSys T) (i : Nat) : PollerSys T :=
  if i < 64 ∧ s.counter + 2 ^ i ≤ eventfdMax then
    { s with counter := s.counter + 2 ^ i, sent := s.sent ++ [i] }
  else { s with failed := true }

/-- A step of sender `i` inside `dispatcher_t::write`. -/
def senderStep (s : PollerSys T) (i : Nat) : SenderPc → Option (PollerSys T)
  | .idle => none
  | .flush =>
      if (s.pipes i).unflushed then
        match (s.pipes i).flushCas with
        | (true, y) => some (s.setSender i y .idle)
        | (false, y) => some (s.setSender i y .set)
      else some (s.setSender i (s.pipes i) .idle)
  | .set => some (s.setSender i (s.pipes i).flushSet .signal)
  | .signal => some ((s.setSender i (s.pipes i) .idle).signal i)
  | .post => none

/-- `ysocketpair_t::check` at the beginning of `process_event`. -/
def check (s : PollerSys T) : PollerSys T :=
  { s with
    counter := 0
    receiver := .scan (BitVec.ofNat 64 s.counter) 0
    sent := []
    got := s.sent }

/-- A step of `ypipe_t::read` on pipe `i`; when it returns false the loop of
`process_event` moves on to the next thread.  The command taken is processed;
`isStop` commands end the main loop. -/
def drainStep (isStop : T → Bool) (s : PollerSys T) (signals : BitVec 64)
    (i : Nat) : DrainStage → PollerSys T
  | .read =>
      if (s.pipes i).prefetched then
        s.setReceiver i (s.pipes i) (.drain signals i .pop)
      else if (s.pipes i).stop then
        s.setReceiver i (s.pipes i).stopRead (.scan signals (i + 1))
      else s.setReceiver i (s.pipes i) (.drain signals i .fetch)
  | .fetch =>
      match (s.pipes i).fetch true with
      | (true, y) => s.setReceiver i y (.drain signals i .pop)
      | (false, y) => s.setReceiver i y (.scan signals (i + 1))
  | .pop =>
      { s.setReceiver i (s.pipes i).pop (.drain signals i .read) with
        stopped := (s.pipes i).load.any isStop
        processed :=
          Function.update s.processed i
            (s.processed i ++ [(s.pipes i).load]) }

/-- A step of the poller inside `process_event`, with `n` threads. -/
def receiverStep (isStop : T → Bool) (n : Nat) (s : PollerSys T) :
    ReceiverPc 64 → Option (PollerSys T)
  | .scan signals i =>
      if i = n then some { s with receiver := .idle }
      else if signals.getLsbD i then
        some { s with receiver := .drain signals i .read }
      else some { s with receiver := .scan signals (i + 1) }
  | .drain signals i stage => some (s.drainStep isStop signals i stage)
  | _ => none

/-- One step of one of the `n` threads or of the poller. -/
def step (isStop : T → Bool) (n : Nat) (s : PollerSys T) :
    PollerAct T → Option (PollerSys T)
  | .write i value =>
      if i < n ∧ s.senders i = .idle then
        some (s.setSender i ((s.pipes i).write value) .flush)
      else none
  | .sender i => if i < n then s.senderStep i (s.senders i) else none
  | .check =>
      if s.receiver = .idle ∧ s.stopped = false ∧ 0 < s.counter then
        some s.check
      else none
  | .receiver =>
      if s.stopped then none else s.receiverStep isStop n s.receiver

/-! ## The refinement -/

/-- The poller as a receiver whose bits are those of the counter; it never waits
on a semaphore. -/
def toDispatcher (s : PollerSys T) : Dispatcher T 63 :=
  { pipes := s.pipes
    senders := s.senders
    bits := BitVec.ofNat 64 s.counter
    sem := 0
    receiver := s.receiver
    processed := s.processed }

/-- What a step can do: something that the signaler has no part in, which is a
step of the dispatcher, or a signal, or a check. -/
inductive Step (n : Nat) (s : PollerSys T) : PollerSys T → Prop where
  | common {s' : PollerSys T} {a : DispatcherAct T}
      (hcounter : s'.counter = s.counter) (hsent : s'.sent = s.sent)
      (hgot : s'.got = s.got) (hfailed : s'.failed = s.failed)
      (hsignals : s'.receiver.signals = none ∨
        s'.receiver.signals = s.receiver.signals)
      (hd : Dispatcher.Step n s.toDispatcher a s'.toDispatcher) : Step n s s'
  | signal {i : Nat} (hi : i < n) (hpc : s.senders i = .signal) :
      Step n s ((s.setSender i (s.pipes i) .idle).signal i)
  | check (hr : s.receiver = .idle) (hpos : 0 < s.counter) : Step n s s.check

variable {n : Nat} {s s' : PollerSys T} {isStop : T → Bool} {i : Nat}

theorem Step.of_senderStep {pc : SenderPc} (hi : i < n)
    (hpc : s.senders i = pc) (h : s.senderStep i pc = some s') :
    Step n s s' := by
  cases pc with
  | idle => cases h
  | flush =>
      rw [senderStep] at h
      split at h
      · by_cases hc : (s.pipes i).c = some (s.pipes i).w
        · rw [Ypipe.flushCas_of_eq hc] at h
          cases h
          exact .common rfl rfl rfl rfl (.inr rfl)
            (.sender hi (.casFound hpc hc))
        · rw [Ypipe.flushCas_of_ne hc] at h
          cases h
          exact .common rfl rfl rfl rfl (.inr rfl)
            (.sender hi (.casNull hpc hc))
      · next hu =>
          cases h
          exact .common rfl rfl rfl rfl (.inr rfl)
            (.sender hi (.casNothing hpc (Bool.eq_false_iff.mpr hu)))
  | set =>
      cases h
      exact .common rfl rfl rfl rfl (.inr rfl) (.sender hi (.set hpc))
  | signal =>
      cases h
      exact .signal hi hpc
  | post => cases h

theorem toDispatcher_drainStep (signals : BitVec 64) (stage : DrainStage) :
    (s.drainStep isStop signals i stage).toDispatcher =
      s.toDispatcher.drainStep signals i stage := by
  have hpipe : s.toDispatcher.pipes i = s.pipes i := rfl
  cases stage with
  | read =>
      simp only [drainStep, Dispatcher.drainStep, hpipe]
      split
      · rfl
      · split
        · rfl
        · rfl
  | fetch =>
      simp only [drainStep, Dispatcher.drainStep, hpipe]
      rcases (s.pipes i).fetch true with ⟨_ | _, y⟩
      · rfl
      · rfl
  | pop => rfl

/-- A step of `read` leaves the signaler and the value read from it alone. -/
theorem drainStep_frame (s : PollerSys T) (isStop : T → Bool)
    (signals : BitVec 64) (i : Nat) (stage : DrainStage) :
    (s.drainStep isStop signals i stage).counter = s.counter ∧
      (s.drainStep isStop signals i stage).sent = s.sent ∧
      (s.drainStep isStop signals i stage).got = s.got ∧
      (s.drainStep isStop signals i stage).failed = s.failed ∧
      (s.drainStep isStop signals i stage).receiver.signals =
        some signals := by
  cases stage with
  | read =>
      simp only [drainStep]
      split
      · exact ⟨rfl, rfl, rfl, rfl, rfl⟩
      · split
        · exact ⟨rfl, rfl, rfl, rfl, rfl⟩
        · exact ⟨rfl, rfl, rfl, rfl, rfl⟩
  | fetch =>
      simp only [drainStep]
      rcases (s.pipes i).fetch true with ⟨_ | _, y⟩
      · exact ⟨rfl, rfl, rfl, rfl, rfl⟩
      · exact ⟨rfl, rfl, rfl, rfl, rfl⟩
  | pop => exact ⟨rfl, rfl, rfl, rfl, rfl⟩

theorem Step.of_receiverStep {pc : ReceiverPc 64} (hr : s.receiver = pc)
    (h : s.receiverStep isStop n pc = some s') : Step n s s' := by
  cases pc with
  | scan signals i =>
      rw [receiverStep] at h
      split at h
      · next hi =>
          cases h
          exact .common rfl rfl rfl rfl (.inl rfl) (.scanEnd (hi ▸ hr))
      · split at h
        · next hbit =>
            cases h
            exact .common rfl rfl rfl rfl (.inr (by rw [hr]; rfl))
              (.read (.wake hr hbit))
        · next hbit =>
            cases h
            exact .common rfl rfl rfl rfl (.inr (by rw [hr]; rfl))
              (.scanSkip hr (by simpa using hbit))
  | drain signals i stage =>
      cases h
      obtain ⟨hcounter, hsent, hgot, hfailed, hsignals⟩ :=
        drainStep_frame s isStop signals i stage
      refine .common (a := .receiver) hcounter hsent hgot hfailed (.inr ?_) ?_
      · rw [hsignals, hr]
        rfl
      · rw [toDispatcher_drainStep]
        exact .read (.of_drainStep hr)
  | idle => cases h
  | izte => cases h
  | wait => cases h
  | xchg => cases h

theorem Step.of_step {a : PollerAct T} (h : s.step isStop n a = some s') :
    Step n s s' := by
  cases a with
  | write i value =>
      rw [PollerSys.step] at h
      split at h
      · next hw =>
          cases h
          exact .common rfl rfl rfl rfl (.inr rfl) (.sender hw.1 (.write hw.2))
      · cases h
  | sender i =>
      rw [PollerSys.step] at h
      split at h
      · next hi => exact .of_senderStep hi rfl h
      · cases h
  | check =>
      rw [PollerSys.step] at h
      split at h
      · next hc =>
          cases h
          exact .check hc.1 hc.2.2
      · cases h
  | receiver =>
      rw [PollerSys.step] at h
      split at h
      · cases h
      · exact .of_receiverStep rfl h

/-- The counter is the sum of the signals of different threads; the value the
poller works on was such a sum, too. -/
structure CounterInv (n : Nat) (s : PollerSys T) : Prop where
  once : s.sent.Nodup
  threads : ∀ i ∈ s.sent, i < n
  counter : s.counter = twoPowSum s.sent
  gotOnce : s.got.Nodup
  gotThreads : ∀ i ∈ s.got, i < n
  got : ∀ signals, s.receiver.signals = some signals →
    signals.toNat = twoPowSum s.got
  holds : s.failed = false

theorem CounterInv.start : CounterInv n (start : PollerSys T) where
  once := .nil
  threads := by simp [PollerSys.start]
  counter := rfl
  gotOnce := .nil
  gotThreads := by simp [PollerSys.start]
  got := by simp [PollerSys.start, ReceiverPc.signals]
  holds := rfl

theorem CounterInv.getLsbD (h : CounterInv n s) (hi : i < 64) :
    (BitVec.ofNat 64 s.counter).getLsbD i = decide (i ∈ s.sent) := by
  rw [BitVec.getLsbD_ofNat, h.counter, testBit_twoPowSum h.once]
  simp [hi]

theorem CounterInv.counter_lt (h : CounterInv n s) : s.counter < 2 ^ n := by
  rw [h.counter]
  exact twoPowSum_lt h.once h.threads

/-- A thread that is about to signal has no signal in the counter. -/
theorem CounterInv.not_sent (h : CounterInv n s) (hn : n ≤ 63) (hi : i < n)
    (hpipe : s.toDispatcher.PipeInv i) (hpc : s.senders i = .signal) :
    i ∉ s.sent := by
  have hle := hpipe.proto.wakeLe
  have hone : (s.toDispatcher.senders i).signalling = 1 := by
    change (s.senders i).signalling = 1
    rw [hpc]
    rfl
  have hbit : s.toDispatcher.bits.getLsbD i = decide (i ∈ s.sent) :=
    h.getLsbD (by omega)
  simp only [Dispatcher.wakeups, hbit, hone] at hle
  by_contra hmem
  rw [decide_eq_true hmem, Bool.toNat_true] at hle
  omega

theorem CounterInv.nodup_sent (h : CounterInv n s) (hnot : i ∉ s.sent) :
    (s.sent ++ [i]).Nodup :=
  h.once.append (List.nodup_singleton i) (by simpa using hnot)

theorem CounterInv.signal_eq (h : CounterInv n s) (hn : n ≤ 63) (hi : i < n)
    (hnot : i ∉ s.sent) (y : Ypipe T) (pc : SenderPc) :
    (s.setSender i y pc).signal i =
      { s.setSender i y pc with
        counter := s.counter + 2 ^ i
        sent := s.sent ++ [i] } := by
  have hlt : s.counter + 2 ^ i < 2 ^ n := by
    rw [h.counter, ← twoPowSum_append_singleton]
    apply twoPowSum_lt (h.nodup_sent hnot)
    intro j hj
    rcases List.mem_append.mp hj with hj | hj
    · exact h.threads j hj
    · rw [List.mem_singleton.mp hj]
      exact hi
  have hpow : 2 ^ n ≤ 2 ^ 63 := Nat.pow_le_pow_right (by decide) hn
  have hmax : eventfdMax = 2 ^ 64 - 2 := rfl
  have hfits : i < 64 ∧ s.counter + 2 ^ i ≤ eventfdMax := by omega
  exact if_pos hfits

/-- Adding the signal sets its bit, and no other. -/
theorem CounterInv.ofNat_add (h : CounterInv n s) (hn : n ≤ 63) (hi : i < n)
    (hnot : i ∉ s.sent) :
    BitVec.ofNat 64 (s.counter + 2 ^ i) =
      (btsr (BitVec.ofNat 64 s.counter) i 63).2 := by
  apply BitVec.eq_of_getLsbD_eq
  intro j hj
  rw [getLsbD_btsr _ hj, h.getLsbD hj, BitVec.getLsbD_ofNat, h.counter,
    ← twoPowSum_append_singleton, testBit_twoPowSum (h.nodup_sent hnot)]
  by_cases hlast : j = 63
  · have hj' : j ∉ s.sent := fun hm => by
      have := h.threads j hm
      omega
    have hji : j ≠ i := by omega
    simp [hlast] at hj' hji ⊢
    exact ⟨hj', hji⟩
  · simp [hj, hlast]

/-- Every step is a step of the dispatcher with a bitmap. -/
theorem CounterInv.refines (h : CounterInv n s) (hn : n ≤ 63)
    (hpipe : ∀ j < n, s.toDispatcher.PipeInv j) (hstep : Step n s s') :
    ∃ a, Dispatcher.Step n s.toDispatcher a s'.toDispatcher := by
  cases hstep with
  | common _ _ _ _ _ hd => exact ⟨_, hd⟩
  | @signal i hi hpc =>
      have hnot := h.not_sent hn hi (hpipe i hi) hpc
      have hwait : s.toDispatcher.bits.getLsbD 63 = false := by
        rw [show s.toDispatcher.bits.getLsbD 63 = decide (63 ∈ s.sent) from
          h.getLsbD (by decide)]
        refine decide_eq_false fun hmem => ?_
        have := h.threads 63 hmem
        omega
      have hd := Dispatcher.SenderStep.signal (s := s.toDispatcher) hpc
      rw [hwait] at hd
      rw [h.signal_eq hn hi hnot, show toDispatcher
        { s.setSender i (s.pipes i) .idle with
          counter := s.counter + 2 ^ i
          sent := s.sent ++ [i] } =
        { s.toDispatcher.setSender i (s.toDispatcher.pipes i) .idle with
          bits := BitVec.ofNat 64 (s.counter + 2 ^ i) } from rfl,
        h.ofNat_add hn hi hnot]
      exact ⟨_, .sender hi hd⟩
  | check hr hpos =>
      refine ⟨_, .takeSignals (.inr ⟨rfl, hr⟩) ?_⟩
      intro hzero
      have hnat := congrArg BitVec.toNat hzero
      change (BitVec.ofNat 64 s.counter).toNat = 0 at hnat
      have hlt := h.counter_lt
      have hpow : 2 ^ n ≤ 2 ^ 63 := Nat.pow_le_pow_right (by decide) hn
      rw [BitVec.toNat_ofNat, Nat.mod_eq_of_lt (by omega)] at hnat
      omega

theorem CounterInv.step (h : CounterInv n s) (hn : n ≤ 63)
    (hpipe : ∀ j < n, s.toDispatcher.PipeInv j) (hstep : Step n s s') :
    CounterInv n s' := by
  cases hstep with
  | common hcounter hsent hgot hfailed hsignals _ =>
      exact
        { once := by rw [hsent]; exact h.once
          threads := by rw [hsent]; exact h.threads
          counter := by rw [hcounter, hsent]; exact h.counter
          gotOnce := by rw [hgot]; exact h.gotOnce
          gotThreads := by rw [hgot]; exact h.gotThreads
          got := by
            intro signals hs
            rw [hgot]
            rcases hsignals with hnone | hsame
            · rw [hnone] at hs
              cases hs
            · exact h.got signals (hsame ▸ hs)
          holds := by rw [hfailed]; exact h.holds }
  | @signal i hi hpc =>
      have hnot := h.not_sent hn hi (hpipe i hi) hpc
      rw [h.signal_eq hn hi hnot]
      exact
        { once := h.nodup_sent hnot
          threads := by
            intro j hj
            rcases List.mem_append.mp hj with hj | hj
            · exact h.threads j hj
            · exact List.mem_singleton.mp hj ▸ hi
          counter := by
            rw [twoPowSum_append_singleton, ← h.counter]
          gotOnce := h.gotOnce
          gotThreads := h.gotThreads
          got := h.got
          holds := h.holds }
  | check hr hpos =>
      exact
        { once := .nil
          threads := by simp [PollerSys.check]
          counter := rfl
          gotOnce := h.once
          gotThreads := h.threads
          got := by
            intro signals hs
            cases hs
            have hlt := h.counter_lt
            have hpow : 2 ^ n ≤ 2 ^ 63 := Nat.pow_le_pow_right (by decide) hn
            rw [BitVec.toNat_ofNat, Nat.mod_eq_of_lt (by omega)]
            exact h.counter
          holds := h.holds }

/-- What holds in every state of every interleaving of `n` threads and the
poller. -/
structure Apart (n : Nat) (s : PollerSys T) : Prop where
  /-- Since the last `check` every thread has signalled at most once. -/
  once : s.sent.Nodup ∧ ∀ i ∈ s.sent, i < n
  /-- The counter is the sum, and the bitwise or, of their signals. -/
  counter : s.counter = twoPowSum s.sent ∧ s.counter = twoPowOr s.sent
  /-- The bit of a thread is set when it has signalled, and only then. -/
  bits : ∀ i, s.counter.testBit i = decide (i ∈ s.sent)
  bound : s.counter ≤ eventfdMax
  /-- The same for the value that `check` has read. -/
  value : ∀ signals, s.receiver.signals = some signals →
    (s.got.Nodup ∧ ∀ i ∈ s.got, i < n) ∧
      signals.toNat = twoPowSum s.got ∧ signals.toNat = twoPowOr s.got ∧
      ∀ i, signals.getLsbD i = decide (i ∈ s.got)
  holds : s.failed = false

/-- Signals added into an eventfd are never confused: for every dispatcher with
at most 63 threads and every interleaving of their `dispatcher_t::write` calls
with the checks and the drains of the I/O thread. -/
theorem signals_not_confused (isStop : T → Bool) (hn : n ≤ 63)
    {as : List (PollerAct T)}
    (h : Run (step isStop n) Any (start : PollerSys T) as s) :
    Apart n s := by
  have hinv : CounterInv n s ∧ ∀ j < n, s.toDispatcher.PipeInv j := by
    refine h.invariant (I := fun s => CounterInv n s ∧
      ∀ j < n, s.toDispatcher.PipeInv j) ?_ ?_
    · rintro s a s' ⟨hcount, hpipe⟩ _ hstep
      have hstep := Step.of_step hstep
      obtain ⟨_, hdispatch⟩ := hcount.refines hn hpipe hstep
      exact ⟨hcount.step hn hpipe hstep,
        Dispatcher.PipeInv.step hn hpipe hdispatch⟩
    · exact ⟨.start, fun j _ => Dispatcher.PipeInv.start j⟩
  obtain ⟨hcount, -⟩ := hinv
  have hlt := hcount.counter_lt
  have hpow : 2 ^ n ≤ 2 ^ 63 := Nat.pow_le_pow_right (by decide) hn
  have hmax : eventfdMax = 2 ^ 64 - 2 := rfl
  exact
    { once := ⟨hcount.once, hcount.threads⟩
      counter := ⟨hcount.counter, by
        rw [hcount.counter, twoPowSum_eq_twoPowOr hcount.once]⟩
      bits := fun i => by rw [hcount.counter, testBit_twoPowSum hcount.once]
      bound := by omega
      value := fun signals hs => by
        have hvalue := hcount.got signals hs
        refine ⟨⟨hcount.gotOnce, hcount.gotThreads⟩, hvalue, ?_, fun i => ?_⟩
        · rw [hvalue, twoPowSum_eq_twoPowOr hcount.gotOnce]
        · rw [← BitVec.testBit_toNat, hvalue, testBit_twoPowSum hcount.gotOnce]
      holds := hcount.holds }

/-- Two threads signal, the poller takes both signals, and the first thread
signals again after the poller has drained its pipe. -/
theorem signals_not_confused_two_threads :
    ∃ s : PollerSys Nat,
      Run (step (fun v => v == 0) 2) Any start
        [.write 1 7, .sender 1, .sender 1, .sender 1,
          .write 0 8, .sender 0, .sender 0, .sender 0,
          .check, .receiver, .receiver, .receiver, .receiver, .receiver,
          .write 0 9, .sender 0, .sender 0, .sender 0] s ∧
      (s.got = [1, 0] ∧ s.sent = [0] ∧ s.counter = 1) ∧ Apart 2 s :=
  Run.exists_of_exec (by decide +kernel)
    fun _ hrun hs => ⟨hs, signals_not_confused _ (by decide) hrun⟩

end PollerSys

end ZeroMQ
