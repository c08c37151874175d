import ZeroMQ.Dispatch.Basic
import ZeroMQ.Lib.CasLoop
import ZeroMQ.Queue.Drain

/-!
# No command is lost

A command reaches its receiver through four words that different threads change
at different times: the `c` of its pipe, the sender's signal bit, the wait bit
and the semaphore.  Two invariants tie them together.

* Every command pipe follows the sleep protocol of `ypipe_t`.  The reader
  sleeps unless the receiver is draining the pipe; the wake-up owed to it is, in
  turn, a sender about to raise its bit, the raised bit, and the bit in a result
  of `poll` that `process_commands` has not come to yet (`PipeInv`).
* One token wakes the receiver that waits on the semaphore: the wait bit, then
  the sender that reset it and is about to post, then the post (`Token`).

## Main results

* `PipeInv.step`, `PollInv.step` — every step of every thread keeps them.
* `no_command_lost` — what follows for every interleaving.
* `bitmap_loops_refine` — the same with the loops inside the operations of the
  bitmap.
-/

namespace ZeroMQ

variable {T : Type} {waitSignal : Nat}

/-- The place in `ypipe_t::read` of a receiver that is draining pipe `i`. -/
def ReceiverPc.stage {width : Nat} (i : Nat) :
    ReceiverPc width → Option DrainStage
  | .drain _ k stage => if k = i then some stage else none
  | _ => none

/-- The receiver has been given signal `i` and will come to pipe `i`. -/
def ReceiverPc.pending {width : Nat} (i : Nat) : ReceiverPc width → Bool
  | .scan signals k => signals.getLsbD i && decide (k ≤ i)
  | .drain signals k _ => signals.getLsbD i && decide (k < i)
  | _ => false

theorem ReceiverPc.pending_drain {width : Nat} (i : Nat)
    (signals : BitVec width) (k : Nat) (stage : DrainStage) :
    ReceiverPc.pending i (.drain signals k stage) =
      ReceiverPc.pending i (.scan signals (k + 1)) := rfl

theorem ReceiverPc.pending_next {width : Nat} (signals : BitVec width)
    (i : Nat) : ReceiverPc.pending i (.scan signals (i + 1)) = false := by
  rw [pending, decide_eq_false (Nat.not_succ_le_self i), Bool.and_false]

/-- The result of `poll` or `check` the receiver is working on. -/
def ReceiverPc.signals {width : Nat} :
    ReceiverPc width → Option (BitVec width)
  | .scan signals _ => some signals
  | .drain signals _ _ => some signals
  | _ => none

/-- The commands a sender has stored and not flushed. -/
def SenderPc.unflushed : SenderPc → Nat
  | .flush | .set => 1
  | _ => 0

/-- The sender is about to raise its signal. -/
def SenderPc.signalling : SenderPc → Nat
  | .signal => 1
  | _ => 0

namespace Dispatcher

open ZeroMQ.Lib

/-- The wake-ups owed to the reader of pipe `i`. -/
def wakeups (s : Dispatcher T waitSignal) (i : Nat) : Nat :=
  (s.bits.getLsbD i).toNat + (s.receiver.pending i).toNat +
    (s.senders i).signalling

/-! ## The command pipes -/

/-- The invariant of the command pipe of sender `i`. -/
structure PipeInv (s : Dispatcher T waitSignal) (i : Nat) : Prop where
  proto : Ypipe.Proto true (s.receiver.stage i = none) (s.wakeups i)
    (s.pipes i)
  setting : s.senders i = .set → (s.pipes i).c = none
  stored : (s.pipes i).w + (s.senders i).unflushed = (s.pipes i).back
  taken : s.processed i =
    ((s.pipes i).slots.take (s.pipes i).front).map some
  fetching : s.receiver.stage i = some .fetch →
    (s.pipes i).r = some (s.pipes i).front ∧ (s.pipes i).stop = false
  popping : s.receiver.stage i = some .pop →
    (s.pipes i).r ≠ some (s.pipes i).front

theorem PipeInv.start (i : Nat) :
    PipeInv (start : Dispatcher T waitSignal) i where
  proto := by
    have hproto := Ypipe.Proto.create (T := T) (D := true) true
    simpa [Dispatcher.start, wakeups, ReceiverPc.stage, ReceiverPc.pending,
      SenderPc.signalling] using hproto
  setting := by simp [Dispatcher.start]
  stored := rfl
  taken := rfl
  fetching := by simp [Dispatcher.start, ReceiverPc.stage]
  popping := by simp [Dispatcher.start, ReceiverPc.stage]

variable {n : Nat} {s s' : Dispatcher T waitSignal} {i : Nat} {pc : SenderPc}
  {y : Ypipe T} {bits : BitVec (waitSignal + 1)}

/-- A step that leaves the pipe alone and the wake-ups owed. -/
theorem PipeInv.moves (h : PipeInv s i) (hpipe : s'.pipes i = s.pipes i)
    (hprocessed : s'.processed i = s.processed i)
    (hwake : s'.wakeups i = s.wakeups i)
    (hunflushed : (s'.senders i).unflushed = (s.senders i).unflushed)
    (hasleep : s.receiver.stage i = none ↔ s'.receiver.stage i = none)
    (hsetting : s'.senders i = .set → (s.pipes i).c = none)
    (hfetching : s'.receiver.stage i = some .fetch →
      (s.pipes i).r = some (s.pipes i).front ∧ (s.pipes i).stop = false)
    (hpopping : s'.receiver.stage i = some .pop →
      (s.pipes i).r ≠ some (s.pipes i).front) : PipeInv s' i := by
  constructor
  · rw [hpipe, hwake]
    exact h.proto.congr hasleep
  · rwa [hpipe]
  · rw [hpipe, hunflushed]
    exact h.stored
  · rw [hpipe, hprocessed]
    exact h.taken
  · rwa [hpipe]
  · rwa [hpipe]

theorem PipeInv.write {value : T} (h : PipeInv s i)
    (hpc : s.senders i = .idle) :
    PipeInv (s.setSender i ((s.pipes i).write value) .flush) i where
  proto := by
    have hproto := h.proto.write value
    simpa [setSender, wakeups, hpc, SenderPc.signalling] using hproto
  setting := by simp [setSender]
  stored := by
    have hstored := h.stored
    simp only [hpc, SenderPc.unflushed] at hstored
    simp [setSender, SenderPc.unflushed, Ypipe.write, Ypipe.back] at hstored ⊢
    omega
  taken := by
    have hle : (s.pipes i).front ≤ (s.pipes i).slots.length :=
      h.proto.front_le_back
    simp [setSender, Ypipe.write, h.taken, List.take_append_of_le_length hle]
  fetching := by simpa [setSender, Ypipe.write] using h.fetching
  popping := by simpa [setSender, Ypipe.write] using h.popping

/-- `flush` finds its reader awake: nobody needs a signal. -/
theorem PipeInv.casFound (h : PipeInv s i) (hpc : s.senders i = .flush)
    (hc : (s.pipes i).c = some (s.pipes i).w) :
    PipeInv
      (s.setSender i
        { s.pipes i with c := some (s.pipes i).back, w := (s.pipes i).back }
        .idle) i where
  proto := by
    have hproto := h.proto.flushCas hc
    simpa [setSender, wakeups, hpc, SenderPc.signalling] using hproto
  setting := by simp [setSender]
  stored := by simp [setSender, SenderPc.unflushed, Ypipe.back]
  taken := by simpa [setSender] using h.taken
  fetching := by simpa [setSender] using h.fetching
  popping := by simpa [setSender] using h.popping

theorem PipeInv.casNull (h : PipeInv s i) (hpc : s.senders i = .flush)
    (hc : (s.pipes i).c ≠ some (s.pipes i).w) :
    PipeInv (s.setSender i (s.pipes i) .set) i :=
  h.moves (Function.update_self ..) rfl
    (by simp [setSender, wakeups, hpc, SenderPc.signalling])
    (by simp [setSender, SenderPc.unflushed, hpc]) .rfl
    (fun _ => h.proto.cEq.resolve_right hc) h.fetching h.popping

/-- From the plain store on the sender owes its reader a signal. -/
theorem PipeInv.set (h : PipeInv s i) (hpc : s.senders i = .set) :
    PipeInv (s.setSender i (s.pipes i).flushSet .signal) i where
  proto := by
    have hc := h.setting hpc
    have hzero : s.wakeups i = 0 := (h.proto.of_c_none hc).2
    simp only [wakeups, hpc, SenderPc.signalling] at hzero
    have hproto := h.proto.flushSet hc
    have hone : (s.setSender i (s.pipes i).flushSet .signal).wakeups i = 1 := by
      simp only [wakeups, setSender, Function.update_self,
        SenderPc.signalling]
      omega
    rw [hone]
    simpa [setSender] using hproto
  setting := by simp [setSender]
  stored := by simp [setSender, SenderPc.unflushed, Ypipe.flushSet, Ypipe.back]
  taken := by simpa [setSender, Ypipe.flushSet] using h.taken
  fetching := by simpa [setSender, Ypipe.flushSet] using h.fetching
  popping := by simpa [setSender, Ypipe.flushSet] using h.popping

/-- `signal` turns the wake-up that sender `i` owes into its bit. -/
theorem PipeInv.wakeups_signal (h : PipeInv s i) (hi : s.senders i = .signal)
    (hlt : i < waitSignal) (hpc : pc = .post ∨ pc = .idle) :
    wakeups
      { s.setSender i (s.pipes i) pc with
        bits := (btsr s.bits i waitSignal).2 } i = s.wakeups i := by
  have hbit : (btsr s.bits i waitSignal).2.getLsbD i = true := by
    rw [getLsbD_btsr s.bits (Nat.lt_succ_of_lt hlt)]
    simp [Nat.ne_of_lt hlt]
  have hle := h.proto.wakeLe
  have hpc0 : pc.signalling = 0 := by
    rcases hpc with rfl | rfl
    · rfl
    · rfl
  have hi1 : (s.senders i).signalling = 1 := by rw [hi]; rfl
  simp only [wakeups, hi1] at hle
  simp only [wakeups, setSender, Function.update_self, hbit, hi1, hpc0,
    Bool.toNat_true]
  omega

theorem PipeInv.signal (h : PipeInv s i) (hi : s.senders i = .signal)
    (hlt : i < waitSignal) (hpc : pc = .post ∨ pc = .idle) :
    PipeInv
      { s.setSender i (s.pipes i) pc with
        bits := (btsr s.bits i waitSignal).2 } i :=
  h.moves (Function.update_self ..) rfl (h.wakeups_signal hi hlt hpc)
    (by rcases hpc with rfl | rfl <;> simp [setSender, SenderPc.unflushed, hi])
    .rfl (by rcases hpc with rfl | rfl <;> simp [setSender]) h.fetching h.popping

theorem PipeInv.post {sem : Nat} (h : PipeInv s i)
    (hi : s.senders i = .post) :
    PipeInv { s.setSender i (s.pipes i) .idle with sem := sem } i :=
  h.moves (Function.update_self ..) rfl
    (by simp [setSender, wakeups, hi, SenderPc.signalling])
    (by simp [setSender, SenderPc.unflushed, hi]) .rfl (by simp [setSender])
    h.fetching h.popping

/-- The receiver comes to a pipe whose bit it was given. -/
theorem PipeInv.scanDrain {signals : BitVec (waitSignal + 1)}
    (h : PipeInv s i) (hr : s.receiver = .scan signals i)
    (hbit : signals.getLsbD i = true) :
    PipeInv { s with receiver := .drain signals i .read } i := by
  have hle := h.proto.wakeLe
  have hpending : (s.receiver.pending i).toNat = 1 := by
    simp [hr, ReceiverPc.pending, hbit]
  have hone : s.wakeups i = 1 := by
    simp only [wakeups] at hle ⊢
    omega
  have hzero : wakeups { s with receiver := .drain signals i .read } i = 0 := by
    have hnone : (ReceiverPc.pending i (.drain signals i .read)).toNat = 0 := by
      simp [ReceiverPc.pending]
    simp only [wakeups] at hone ⊢
    omega
  have hproto := h.proto
  rw [hone] at hproto
  have hawake := hproto.wake (by simp [hr, ReceiverPc.stage])
  exact
    { h with
      proto := by
        rw [hzero]
        simpa [ReceiverPc.stage] using hawake
      fetching := by simp [ReceiverPc.stage]
      popping := by simp [ReceiverPc.stage] }

section Drain

variable {signals : BitVec (waitSignal + 1)}

theorem PipeInv.awake {stage : DrainStage} (h : PipeInv s i)
    (hr : s.receiver = .drain signals i stage) :
    Ypipe.Proto true False (s.wakeups i) (s.pipes i) := by
  apply h.proto.congr
  simp [hr, ReceiverPc.stage]

theorem PipeInv.readPop (h : PipeInv s i)
    (hr : s.receiver = .drain signals i .read)
    (hp : (s.pipes i).prefetched = true) :
    PipeInv (s.setReceiver i (s.pipes i) (.drain signals i .pop)) i := by
  have hne : some (s.pipes i).front ≠ (s.pipes i).r := by
    simpa [Ypipe.prefetched] using hp
  exact h.moves (Function.update_self ..) rfl
    (by simp [setReceiver, wakeups, hr, ReceiverPc.pending]) rfl
    (by simp [setReceiver, hr, ReceiverPc.stage]) h.setting
    (by simp [setReceiver, ReceiverPc.stage]) fun _ => hne.symm

theorem PipeInv.readFetch (h : PipeInv s i)
    (hr : s.receiver = .drain signals i .read)
    (hp : (s.pipes i).prefetched = false) (hs : (s.pipes i).stop = false) :
    PipeInv (s.setReceiver i (s.pipes i) (.drain signals i .fetch)) i := by
  have he : some (s.pipes i).front = (s.pipes i).r := by
    simpa [Ypipe.prefetched] using hp
  exact h.moves (Function.update_self ..) rfl
    (by simp [setReceiver, wakeups, hr, ReceiverPc.pending]) rfl
    (by simp [setReceiver, hr, ReceiverPc.stage]) h.setting
    (fun _ => ⟨he.symm, hs⟩) (by simp [setReceiver, ReceiverPc.stage])

/-- The second prefetch of a drain is declined: the reader sleeps again, and
finds its wake-up when a sender has come in between. -/
theorem PipeInv.readStop (h : PipeInv s i)
    (hr : s.receiver = .drain signals i .read)
    (hp : (s.pipes i).prefetched = false) (hs : (s.pipes i).stop = true) :
    PipeInv (s.setReceiver i (s.pipes i).stopRead (.scan signals (i + 1)))
      i where
  proto := by
    have he : some (s.pipes i).front = (s.pipes i).r := by
      simpa [Ypipe.prefetched] using hp
    have hproto := h.proto.stopRead hs he.symm
    simpa [setReceiver, wakeups, hr, ReceiverPc.stage,
      ReceiverPc.pending_drain, ReceiverPc.pending_next] using hproto
  setting := by simpa [setReceiver, Ypipe.stopRead] using h.setting
  stored := by simpa [setReceiver, Ypipe.stopRead, Ypipe.back] using h.stored
  taken := by simpa [setReceiver, Ypipe.stopRead] using h.taken
  fetching := by simp [setReceiver, ReceiverPc.stage]
  popping := by simp [setReceiver, ReceiverPc.stage]

/-- While the receiver is about to prefetch, its sender is not about to store
to `c`. -/
theorem PipeInv.not_setting (h : PipeInv s i)
    (hr : s.receiver = .drain signals i .fetch) : s.senders i ≠ .set := by
  intro hset
  have hstop := (h.fetching (by simp [hr, ReceiverPc.stage])).2
  have hc := ((h.awake hr).c_of_awake id hstop).1
  rw [h.setting hset] at hc
  cases hc

theorem PipeInv.fetchFound (h : PipeInv s i)
    (hr : s.receiver = .drain signals i .fetch)
    (hf : ((s.pipes i).fetch true).1 = true) :
    PipeInv
      (s.setReceiver i ((s.pipes i).fetch true).2 (.drain signals i .pop))
      i := by
  have hstop := (h.fetching (by simp [hr, ReceiverPc.stage])).2
  obtain ⟨hproto, hread, hlt⟩ := (h.awake hr).fetch_true id hstop hf
  exact
    { proto := by
        simpa [setReceiver, wakeups, hr, ReceiverPc.stage, ReceiverPc.pending]
          using hproto
      setting := fun hset => (h.not_setting hr hset).elim
      stored := by simpa [setReceiver, Ypipe.back] using h.stored
      taken := by simpa [setReceiver] using h.taken
      fetching := by simp [setReceiver, ReceiverPc.stage]
      popping := fun _ => by
        simp only [setReceiver, Function.update_self, hread,
          Ypipe.front_fetch, ne_eq, Option.some.injEq]
        omega }

theorem PipeInv.fetchNone (h : PipeInv s i)
    (hr : s.receiver = .drain signals i .fetch)
    (hf : ((s.pipes i).fetch true).1 = false) :
    PipeInv
      (s.setReceiver i ((s.pipes i).fetch true).2 (.scan signals (i + 1)))
      i := by
  have hstop := (h.fetching (by simp [hr, ReceiverPc.stage])).2
  have hproto := (h.awake hr).fetch_false id hstop hf
  exact
    { proto := by
        simpa [setReceiver, wakeups, hr, ReceiverPc.stage,
          ReceiverPc.pending_drain, ReceiverPc.pending_next] using hproto
      setting := fun hset => (h.not_setting hr hset).elim
      stored := by simpa [setReceiver, Ypipe.back] using h.stored
      taken := by simpa [setReceiver] using h.taken
      fetching := by simp [setReceiver, ReceiverPc.stage]
      popping := by simp [setReceiver, ReceiverPc.stage] }

theorem PipeInv.pop (h : PipeInv s i)
    (hr : s.receiver = .drain signals i .pop) :
    PipeInv
      { s.setReceiver i (s.pipes i).pop (.drain signals i .read) with
        processed :=
          Function.update s.processed i
            (s.processed i ++ [(s.pipes i).load]) } i := by
  have hne := h.popping (by simp [hr, ReceiverPc.stage])
  have hlt : (s.pipes i).front < (s.pipes i).slots.length :=
    Nat.lt_of_lt_of_le (h.proto.front_lt_of_prefetched hne) h.proto.wBack
  have hproto := (h.awake hr).pop id hne
  exact
    { proto := by
        simpa [setReceiver, wakeups, hr, ReceiverPc.stage, ReceiverPc.pending]
          using hproto
      setting := by simpa [setReceiver, Ypipe.pop] using h.setting
      stored := by simpa [setReceiver, Ypipe.pop, Ypipe.back] using h.stored
      taken := by
        simp only [setReceiver, Ypipe.pop, Ypipe.load, Function.update_self,
          h.taken, List.getElem?_eq_getElem hlt]
        rw [List.take_succ_eq_append_getElem hlt, List.map_append,
          List.map_singleton]
      fetching := by simp [setReceiver, ReceiverPc.stage]
      popping := by simp [setReceiver, ReceiverPc.stage] }

end Drain

/-! ## One pipe at a time -/

/-- What a step is for pipe `j`: a step of its writer or of its reader, or
nothing. -/
def view (j : Nat) (s : Dispatcher T waitSignal) :
    DispatcherAct T → Option (DrainAct T)
  | .write i value => if i = j then some (.write value) else none
  | .sender i =>
      if i = j then
        match s.senders j with
        | .flush => some .flush
        | .set => some .set
        | _ => none
      else none
  | .receiver =>
      match s.receiver with
      | .scan signals i =>
          if i = j ∧ signals.getLsbD j = true then some .wake else none
      | .drain _ i _ => if i = j then some .read else none
      | _ => none
  | .poll | .check => none

/-- A step that does not concern pipe `j`. -/
structure Untouched (j : Nat) (s : Dispatcher T waitSignal)
    (a : DispatcherAct T) (s' : Dispatcher T waitSignal) : Prop where
  pipe : s'.pipes j = s.pipes j
  sender : s'.senders j = s.senders j
  processed : s'.processed j = s.processed j
  stage : s'.receiver.stage j = s.receiver.stage j
  wakeups : s'.wakeups j = s.wakeups j
  unseen : s.view j a = none

section Elsewhere

variable {j : Nat} {a : DispatcherAct T}

theorem untouched_setSender (sem : Nat) (hj : j ≠ i)
    (hbit : bits.getLsbD j = s.bits.getLsbD j) (hview : s.view j a = none) :
    Untouched j s a { s.setSender i y pc with bits := bits, sem := sem } := by
  constructor <;> simp [setSender, Dispatcher.wakeups, hj, hbit, hview]

/-- The receiver moves on without touching pipe `j` or a wake-up owed to it. -/
theorem untouched_move (sem : Nat) {pc : ReceiverPc (waitSignal + 1)}
    (hstage : pc.stage j = s.receiver.stage j)
    (hsignal : (bits.getLsbD j).toNat + (pc.pending j).toNat =
      (s.bits.getLsbD j).toNat + (s.receiver.pending j).toNat)
    (hview : s.view j a = none) :
    Untouched j s a { s with sem := sem, bits := bits, receiver := pc } where
  pipe := rfl
  sender := rfl
  processed := rfl
  stage := hstage
  wakeups := by
    simp only [Dispatcher.wakeups]
    omega
  unseen := hview

/-- Whether or not the receiver goes on to the next pipe. -/
theorem untouched_setReceiver {signals : BitVec (waitSignal + 1)}
    {stage : DrainStage} {pc : ReceiverPc (waitSignal + 1)}
    (values : List (Option T)) (hj : j ≠ i)
    (hr : s.receiver = .drain signals i stage)
    (hpc : pc = .scan signals (i + 1) ∨
      ∃ stage', pc = .drain signals i stage') :
    Untouched j s .receiver
      { s.setReceiver i y pc with
        processed := Function.update s.processed i values } := by
  have hij : i ≠ j := fun he => hj he.symm
  rcases hpc with rfl | ⟨stage', rfl⟩ <;> constructor <;>
    simp [setReceiver, Dispatcher.wakeups, hj, hij, hr, ReceiverPc.stage,
      ReceiverPc.pending_drain, view]

theorem SenderStep.untouched (hlt : j < waitSignal) (hj : j ≠ i)
    (h : SenderStep i s a s') : Untouched j s a s' := by
  have hview : s.view j (.sender i) = none := if_neg (Ne.symm hj)
  cases h with
  | write hpc => exact untouched_setSender s.sem hj rfl (if_neg (Ne.symm hj))
  | casNothing hpc hu
  | casFound hpc hc
  | casNull hpc hc
  | set hpc => exact untouched_setSender s.sem hj rfl hview
  | signal hpc =>
      refine untouched_setSender s.sem hj ?_ hview
      rw [getLsbD_btsr s.bits (Nat.lt_succ_of_lt hlt)]
      simp [Nat.ne_of_lt hlt, hj]
  | post hpc => exact untouched_setSender _ hj rfl hview

theorem ReadStep.untouched (hj : j ≠ i) (h : ReadStep i s s') :
    Untouched j s .receiver s' := by
  have hreceiver : ∀ {signals stage y pc},
      s.receiver = .drain signals i stage →
      (pc = .scan signals (i + 1) ∨ ∃ stage', pc = .drain signals i stage') →
      Untouched j s .receiver (s.setReceiver i y pc) := by
    intro signals stage y pc hr hpc
    have hother := untouched_setReceiver (y := y) (s.processed i) hj hr hpc
    rwa [Function.update_eq_self] at hother
  cases h with
  | wake hr hbit =>
      apply untouched_move s.sem
      · simp [hr, ReceiverPc.stage, Ne.symm hj]
      · have hlt : i < j ↔ i ≤ j := by omega
        simp [hr, ReceiverPc.pending, hlt]
      · simp [view, hr, Ne.symm hj]
  | readPop hr hp => exact hreceiver hr (.inr ⟨_, rfl⟩)
  | readStop hr hp hs => exact hreceiver hr (.inl rfl)
  | readFetch hr hp hs => exact hreceiver hr (.inr ⟨_, rfl⟩)
  | fetchFound hr hf => exact hreceiver hr (.inr ⟨_, rfl⟩)
  | fetchNone hr hf => exact hreceiver hr (.inl rfl)
  | pop hr => exact untouched_setReceiver _ hj hr (.inr ⟨_, rfl⟩)

/-- What a step of the dispatcher is to one pipe. -/
theorem Step.at_pipe (hn : n ≤ waitSignal) (hj : j < n) (hs : Step n s a s') :
    Untouched j s a s' ∨ SenderStep j s a s' ∨
      a = .receiver ∧ ReadStep j s s' := by
  cases hs with
  | @sender i _ _ hi h =>
      by_cases hji : j = i
      · subst hji
        exact .inr (.inl h)
      · exact .inl (h.untouched (Nat.lt_of_lt_of_le hj hn) hji)
  | @read i _ h =>
      by_cases hji : j = i
      · subst hji
        exact .inr (.inr ⟨rfl, h⟩)
      · exact .inl (h.untouched hji)
  | poll hr =>
      left
      exact untouched_move s.sem (by rw [hr]; rfl) (by rw [hr]; rfl) rfl
  | izteZero hr hz =>
      left
      have hjw : waitSignal ≠ j := by omega
      apply untouched_move s.sem
      · rw [hr]
        rfl
      · simp [hr, hz, ReceiverPc.pending, hjw]
      · simp [view, hr]
  | takeSignals hr hz =>
      left
      rcases hr with ⟨rfl, hr | hr⟩ | ⟨rfl, hr⟩ <;>
        exact untouched_move s.sem (by rw [hr]; rfl)
          (by simp [hr, ReceiverPc.pending]) (by simp [view, hr])
  | wait hr hsem =>
      left
      exact untouched_move _ (by rw [hr]; rfl) (by rw [hr]; rfl)
        (by simp [view, hr])
  | xchgZero hr hz =>
      left
      exact untouched_move s.sem (by rw [hr]; rfl) (by rw [hr, hz]; rfl)
        (by simp [view, hr])
  | checkZero hr hz =>
      left
      exact untouched_move s.sem (by rw [hr]) (by rw [hr, hz]) rfl
  | scanEnd hr =>
      left
      apply untouched_move s.sem
      · rw [hr]
        rfl
      · simp [hr, ReceiverPc.pending, Nat.not_le_of_lt hj]
      · simp [view, hr, Nat.ne_of_gt hj]
  | @scanSkip signals i hr hbit =>
      left
      apply untouched_move s.sem
      · rw [hr]
        rfl
      · by_cases hji : j = i
        · simp [hr, ReceiverPc.pending, hji, hbit]
        · have hlt : i + 1 ≤ j ↔ i ≤ j := by omega
          simp [hr, ReceiverPc.pending, hlt]
      · simp only [view, hr]
        refine if_neg ?_
        rintro ⟨rfl, hset⟩
        rw [hbit] at hset
        cases hset

end Elsewhere

variable {a : DispatcherAct T}

/-- A sender that is before its `cas` has a command to flush. -/
theorem PipeInv.unflushed_of_flush (h : PipeInv s i)
    (hpc : s.senders i = .flush) : (s.pipes i).unflushed = true := by
  have hstored := h.stored
  simp only [hpc, SenderPc.unflushed] at hstored
  unfold Ypipe.unflushed
  rw [bne_iff_ne]
  omega

/-- Every step keeps the invariant of every command pipe. -/
theorem PipeInv.step (hn : n ≤ waitSignal) (h : ∀ j < n, PipeInv s j)
    (hs : Step n s a s') : ∀ j < n, PipeInv s' j := by
  intro j hj
  have hinv := h j hj
  rcases hs.at_pipe hn hj with hother | hsend | ⟨-, hread⟩
  · refine hinv.moves hother.pipe hother.processed hother.wakeups ?_ ?_ ?_ ?_ ?_
    · rw [hother.sender]
    · rw [hother.stage]
    · rw [hother.sender]
      exact hinv.setting
    · rw [hother.stage]
      exact hinv.fetching
    · rw [hother.stage]
      exact hinv.popping
  · cases hsend with
    | write hpc => exact hinv.write hpc
    | casNothing hpc hu =>
        rw [hinv.unflushed_of_flush hpc] at hu
        cases hu
    | casFound hpc hc => exact hinv.casFound hpc hc
    | casNull hpc hc => exact hinv.casNull hpc hc
    | set hpc => exact hinv.set hpc
    | signal hpc =>
        exact hinv.signal hpc (Nat.lt_of_lt_of_le hj hn) (ite_eq_or_eq ..)
    | post hpc => exact hinv.post hpc
  · cases hread with
    | wake hr hbit => exact hinv.scanDrain hr hbit
    | readPop hr hp => exact hinv.readPop hr hp
    | readStop hr hp hstop => exact hinv.readStop hr hp hstop
    | readFetch hr hp hstop => exact hinv.readFetch hr hp hstop
    | fetchFound hr hf => exact hinv.fetchFound hr hf
    | fetchNone hr hf => exact hinv.fetchNone hr hf
    | pop hr => exact hinv.pop hr

/-! ## The pollset -/

/-- The one token that wakes the receiver.  While the receiver is not in the
semaphore's `wait` nobody holds it; otherwise it is the wait bit, the sender
that reset the bit, or the post. -/
inductive Token (n : Nat) (s : Dispatcher T waitSignal) : Prop where
  | none (hr : s.receiver ≠ .wait) (hbit : s.bits.getLsbD waitSignal = false)
      (hsem : s.sem = 0) (hpost : ∀ j < n, s.senders j ≠ .post)
      (hxchg : s.receiver = .xchg → ∃ j < n, s.bits.getLsbD j = true)
  | waitBit (hr : s.receiver = .wait)
      (hbit : s.bits.getLsbD waitSignal = true) (hsem : s.sem = 0)
      (hpost : ∀ j < n, s.senders j ≠ .post)
      (hclear : ∀ j < n, s.bits.getLsbD j = false)
  | sender (i : Nat) (hi : i < n) (hr : s.receiver = .wait)
      (hbit : s.bits.getLsbD waitSignal = false) (hsem : s.sem = 0)
      (hpost : ∀ j < n, s.senders j = .post ↔ j = i)
      (hset : ∃ j < n, s.bits.getLsbD j = true)
  | posted (hr : s.receiver = .wait)
      (hbit : s.bits.getLsbD waitSignal = false) (hsem : s.sem = 1)
      (hpost : ∀ j < n, s.senders j ≠ .post)
      (hset : ∃ j < n, s.bits.getLsbD j = true)

theorem Token.start : Token n (start : Dispatcher T waitSignal) :=
  .none (by simp [Dispatcher.start]) (by simp [Dispatcher.start]) rfl
    (by simp [Dispatcher.start]) (by simp [Dispatcher.start])

/-- Moves of a sender before it signals leave the token where it is. -/
theorem Token.setSender (h : Token n s) (hi : s.senders i ≠ .post)
    (hpc : pc ≠ .post) :
    Token n (s.setSender i y pc) := by
  have hsame : ∀ j, (s.setSender i y pc).senders j = .post ↔
      s.senders j = .post := by
    intro j
    by_cases hj : j = i
    · subst hj
      simp [Dispatcher.setSender, hi, hpc]
    · simp [Dispatcher.setSender, hj]
  cases h with
  | none hr hbit hsem hpost hxchg =>
      exact .none hr hbit hsem (fun j hj => by simpa [hsame] using hpost j hj)
        hxchg
  | waitBit hr hbit hsem hpost hclear =>
      exact .waitBit hr hbit hsem
        (fun j hj => by simpa [hsame] using hpost j hj) hclear
  | sender k hk hr hbit hsem hpost hset =>
      exact .sender k hk hr hbit hsem
        (fun j hj => by simpa [hsame] using hpost j hj) hset
  | posted hr hbit hsem hpost hset =>
      exact .posted hr hbit hsem
        (fun j hj => by simpa [hsame] using hpost j hj) hset

/-- `signal` takes the token from the wait bit, if it is there. -/
theorem Token.signal (h : Token n s) (hn : n ≤ waitSignal) (hi : i < n)
    (hpc : s.senders i = .signal) :
    Token n
      { s.setSender i (s.pipes i)
          (if s.bits.getLsbD waitSignal then .post else .idle) with
        bits := (btsr s.bits i waitSignal).2 } := by
  have hreset : (btsr s.bits i waitSignal).2.getLsbD waitSignal = false := by
    rw [getLsbD_btsr s.bits (Nat.lt_succ_self _)]
    simp
  have hset : ∃ j < n, (btsr s.bits i waitSignal).2.getLsbD j = true := by
    refine ⟨i, hi, ?_⟩
    have hiw : i < waitSignal := Nat.lt_of_lt_of_le hi hn
    rw [getLsbD_btsr s.bits (Nat.lt_succ_of_lt hiw)]
    simp [Nat.ne_of_lt hiw]
  have hnot : s.senders i ≠ .post := by simp [hpc]
  cases h with
  | none hr hbit hsem hpost hxchg =>
      simp only [hbit, Bool.false_eq_true, if_false]
      refine .none hr hreset hsem (fun j hj => ?_) fun _ => hset
      by_cases hj' : j = i <;>
        simp [Dispatcher.setSender, hj', hpost j hj]
  | waitBit hr hbit hsem hpost hclear =>
      simp only [hbit, if_true]
      refine .sender i hi hr hreset hsem (fun j hj => ?_) hset
      by_cases hj' : j = i <;>
        simp [Dispatcher.setSender, hj', hpost j hj]
  | sender k hk hr hbit hsem hpost _ =>
      simp only [hbit, Bool.false_eq_true, if_false]
      refine .sender k hk hr hreset hsem (fun j hj => ?_) hset
      have hki : i ≠ k := fun he => hnot ((hpost i hi).mpr he)
      by_cases hj' : j = i
      · simp [Dispatcher.setSender, hj', hki]
      · simp [Dispatcher.setSender, hj', hpost j hj]
  | posted hr hbit hsem hpost _ =>
      simp only [hbit, Bool.false_eq_true, if_false]
      refine .posted hr hreset hsem (fun j hj => ?_) hset
      by_cases hj' : j = i <;>
        simp [Dispatcher.setSender, hj', hpost j hj]

theorem Token.post (h : Token n s) (hi : i < n) (hpc : s.senders i = .post) :
    Token n { s.setSender i (s.pipes i) .idle with sem := s.sem + 1 } := by
  cases h with
  | none hr hbit hsem hpost hxchg
  | waitBit hr hbit hsem hpost hclear
  | posted hr hbit hsem hpost hset => exact (hpost i hi hpc).elim
  | sender k hk hr hbit hsem hpost hset =>
      refine .posted hr hbit (by simp [hsem]) (fun j hj => ?_) hset
      have hik : i = k := (hpost i hi).mp hpc
      by_cases hj' : j = i
      · simp [Dispatcher.setSender, hj']
      · simp [Dispatcher.setSender, hj', hpost j hj, ← hik]

/-- While the receiver does not wait nobody holds the token. -/
theorem Token.of_not_waiting (h : Token n s) (hr : s.receiver ≠ .wait) :
    s.bits.getLsbD waitSignal = false ∧ s.sem = 0 ∧
      (∀ j < n, s.senders j ≠ .post) ∧
      (s.receiver = .xchg → ∃ j < n, s.bits.getLsbD j = true) := by
  cases h with
  | none _ hbit hsem hpost hxchg => exact ⟨hbit, hsem, hpost, hxchg⟩
  | waitBit hr' => exact (hr hr').elim
  | sender _ _ hr' => exact (hr hr').elim
  | posted hr' => exact (hr hr').elim

theorem Token.move {pipes : Nat → Ypipe T} {pc : ReceiverPc (waitSignal + 1)}
    {processed : Nat → List (Option T)} (h : Token n s)
    (hr : s.receiver ≠ .wait) (hw : pc ≠ .wait) (hx : pc ≠ .xchg)
    (hbits : bits = s.bits ∨ bits = 0) :
    Token n
      { s with
        pipes := pipes
        bits := bits
        receiver := pc
        processed := processed } := by
  obtain ⟨hbit, hsem, hpost, _⟩ := h.of_not_waiting hr
  refine .none hw ?_ hsem hpost fun he => (hx he).elim
  rcases hbits with rfl | rfl
  · exact hbit
  · simp

theorem Token.senderStep (hn : n ≤ waitSignal) (h : Token n s) (hi : i < n)
    (hs : SenderStep i s a s') : Token n s' := by
  cases hs with
  | write hpc
  | casNothing hpc hu
  | casFound hpc hc
  | casNull hpc hc
  | set hpc => exact h.setSender (by simp [hpc]) (by simp)
  | signal hpc => exact h.signal hn hi hpc
  | post hpc => exact h.post hi hpc

theorem Token.readStep (h : Token n s) (hs : ReadStep i s s') : Token n s' := by
  cases hs with
  | wake hr hbit
  | readPop hr hp
  | readStop hr hp hs
  | readFetch hr hp hs
  | fetchFound hr hf
  | fetchNone hr hf => exact h.move (by simp [hr]) (by simp) (by simp) (.inl rfl)
  | pop hr =>
      exact h.move (by simp [hr]) (by simp [setReceiver])
        (by simp [setReceiver]) (.inl rfl)

theorem Token.step (hn : n ≤ waitSignal) (h : Token n s)
    (hs : Step n s a s') : Token n s' := by
  cases hs with
  | sender hi hs => exact h.senderStep hn hi hs
  | read hs => exact h.readStep hs
  | poll hr
  | scanEnd hr
  | scanSkip hr hbit =>
      exact h.move (by simp [hr]) (by simp) (by simp) (.inl rfl)
  | izteZero hr hz =>
      obtain ⟨_, hsem, hpost, _⟩ := h.of_not_waiting (by simp [hr])
      refine .waitBit rfl (by simp) hsem hpost fun j hj => ?_
      have hjw : waitSignal ≠ j := by omega
      simp [hjw]
  | takeSignals hr hz =>
      have hr' : s.receiver ≠ .wait := by
        rcases hr with ⟨-, hr | hr⟩ | ⟨-, hr⟩ <;> simp [hr]
      exact h.move hr' (by simp) (by simp) (.inr rfl)
  | wait hr hsem =>
      cases h with
      | none hr' => exact (hr' hr).elim
      | waitBit _ _ hsem' => omega
      | sender _ _ _ _ hsem' => omega
      | posted _ hbit hsem' hpost hset =>
          exact .none (by simp) hbit (by simp [hsem']) hpost fun _ => hset
  | xchgZero hr hz | checkZero hr hz =>
      exact h.move (by simp [hr]) (by simp) (by simp) (.inr rfl)

/-- The receiver works on a set of senders: it is not empty, and the wait bit
is not taken for a sender. -/
def GotSignals (s : Dispatcher T waitSignal) : Prop :=
  ∀ signals, s.receiver.signals = some signals →
    signals ≠ 0 ∧ signals.getLsbD waitSignal = false

theorem SenderStep.receiver_eq (hs : SenderStep i s a s') :
    s'.receiver = s.receiver := by
  cases hs <;> rfl

theorem ReadStep.signals_eq (hs : ReadStep i s s') :
    s'.receiver.signals = s.receiver.signals := by
  cases hs <;> simp_all [setReceiver, ReceiverPc.signals]

theorem GotSignals.step (htoken : Token n s) (h : GotSignals s)
    (hs : Step n s a s') : GotSignals s' := by
  have hsame : s'.receiver.signals = s.receiver.signals → GotSignals s' := by
    intro he signals hsignals
    exact h signals (he ▸ hsignals)
  cases hs with
  | sender hi hs => exact hsame (by rw [hs.receiver_eq])
  | read hs => exact hsame hs.signals_eq
  | takeSignals hr hz =>
      have hr' : s.receiver ≠ .wait := by
        rcases hr with ⟨-, hr | hr⟩ | ⟨-, hr⟩ <;> simp [hr]
      intro signals hsignals
      simp only [ReceiverPc.signals, Option.some.injEq] at hsignals
      subst hsignals
      exact ⟨hz, (htoken.of_not_waiting hr').1⟩
  | scanEnd hr => simp [GotSignals, ReceiverPc.signals]
  | scanSkip hr hbit
  | poll hr
  | izteZero hr hz
  | wait hr hsem
  | xchgZero hr hz => exact hsame (by rw [hr]; rfl)
  | checkZero hr hz => exact hsame (by rw [hr])

/-- The joint invariant of the pipes and the pollset. -/
structure Inv (n : Nat) (s : Dispatcher T waitSignal) : Prop where
  pipe : ∀ j < n, PipeInv s j
  token : Token n s
  got : GotSignals s

theorem Inv.step (hn : n ≤ waitSignal) (h : Inv n s) (hs : Step n s a s') :
    Inv n s' where
  pipe := PipeInv.step hn h.pipe hs
  token := h.token.step hn hs
  got := h.got.step h.token hs

theorem Inv.run (hn : n ≤ waitSignal)
    {ok : Dispatcher T waitSignal → DispatcherAct T → Prop}
    {as : List (DispatcherAct T)}
    (h : Run (Dispatcher.step n) ok Dispatcher.start as s) : Inv n s :=
  h.invariant (fun _ _ _ hI _ hs => Inv.step hn hI (.of_step hs))
    { pipe := fun j _ => PipeInv.start j
      token := Token.start
      got := by simp [GotSignals, Dispatcher.start, ReceiverPc.signals] }

/-! ## The contract of command passing -/

/-- The commands of sender `i` whose `dispatcher_t::write` has returned. -/
def returned (s : Dispatcher T waitSignal) (i : Nat) : List T :=
  if s.senders i = .idle then (s.pipes i).slots
  else (s.pipes i).slots.dropLast

/-- What holds in every state of every interleaving of `n` senders and the
receiver. -/
structure Delivery (n : Nat) (s : Dispatcher T waitSignal) : Prop where
  /-- Commands are processed at most once and in the order of their sender. -/
  inOrder : ∀ i < n, s.processed i <+: (s.pipes i).slots.map some
  /-- A drain does not start with a pipe whose `c` is `NULL`. -/
  drainable : ∀ i < n, ∀ signals, s.receiver = .scan signals i →
    signals.getLsbD i = true → (s.pipes i).c ≠ none
  /-- A receiver that nobody is about to wake up has processed everything. -/
  allProcessed : s.receiver = .wait → s.sem = 0 →
    (∀ i < n, s.senders i ≠ .signal ∧ s.senders i ≠ .post) →
    ∀ i < n, (s.returned i).map some <+: s.processed i
  /-- `poll` and `check` give the receiver senders to drain: not nothing, and
  not the wait bit. -/
  signals : ∀ signals, s.receiver.signals = some signals →
    signals ≠ 0 ∧ signals.getLsbD waitSignal = false
  /-- After the semaphore `poll` returns: its loop is not entered again. -/
  once : s.receiver = .xchg → ∀ a s', step n s a = some s' →
    s'.receiver = .xchg ∨ s'.receiver = .scan s.bits 0
  /-- A sender about to post finds the semaphore not posted. -/
  unposted : s.sem ≤ 1 ∧ ∀ i < n, s.senders i = .post → s.sem = 0

/-- A waiting receiver whose semaphore nobody has posted or is about to post
has announced itself: the wait bit is set and the signal bits are not. -/
theorem Token.waitBit_of_quiet (h : Token n s) (hr : s.receiver = .wait)
    (hsem : s.sem = 0) (hpost : ∀ i < n, s.senders i ≠ .post) :
    ∀ j < n, s.bits.getLsbD j = false := by
  cases h with
  | none hr' => exact (hr' hr).elim
  | waitBit _ _ _ _ hclear => exact hclear
  | sender k hk _ _ _ hpost' => exact (hpost k hk ((hpost' k hk).mpr rfl)).elim
  | posted _ _ hsem' => omega

theorem Token.unposted (h : Token n s) :
    s.sem ≤ 1 ∧ ∀ i < n, s.senders i = .post → s.sem = 0 := by
  cases h with
  | none _ _ hsem => exact ⟨by omega, fun _ _ _ => hsem⟩
  | waitBit _ _ hsem => exact ⟨by omega, fun _ _ _ => hsem⟩
  | sender _ _ _ _ hsem => exact ⟨by omega, fun _ _ _ => hsem⟩
  | posted _ _ hsem hpost =>
      exact ⟨by omega, fun i hi hp => (hpost i hi hp).elim⟩

/-- Nothing is owed to a pipe whose reader sleeps: it has been read to the last
command whose `dispatcher_t::write` has returned. -/
theorem PipeInv.returned_processed (h : PipeInv s i)
    (hstage : s.receiver.stage i = none) (hwake : s.wakeups i = 0) :
    (s.returned i).map some <+: s.processed i := by
  have hproto := h.proto
  rw [hwake] at hproto
  have hfront := hproto.all_read_of_asleep hstage
  have hstored := h.stored
  rw [h.taken, hfront]
  apply List.IsPrefix.map
  rw [List.prefix_take_iff]
  unfold returned
  split
  · next hidle =>
      simp only [hidle, SenderPc.unflushed, Nat.add_zero] at hstored
      exact ⟨List.prefix_refl _, Nat.le_of_eq hstored.symm⟩
  · refine ⟨List.dropLast_prefix _, ?_⟩
    have hle : (s.senders i).unflushed ≤ 1 := by
      cases s.senders i <;> simp [SenderPc.unflushed]
    simp only [Ypipe.back] at hstored
    rw [List.length_dropLast]
    omega

/-- Command passing loses nothing: for every number of senders the pollset has
bits for and every interleaving of their `dispatcher_t::write` calls with the
receiver's `poll`, `check` and `process_commands`. -/
theorem no_command_lost (hn : n ≤ waitSignal) {as : List (DispatcherAct T)}
    (h : Run (step n) Any (start : Dispatcher T waitSignal) as s) :
    Delivery n s := by
  have hinv := Inv.run hn h
  exact
    { inOrder := fun i hi => by
        rw [(hinv.pipe i hi).taken]
        exact (List.take_prefix _ _).map _
      drainable := fun i hi signals hr hbit => by
        have hproto := (hinv.pipe i hi).proto
        apply hproto.wakeC
        have hle := hproto.wakeLe
        have hpending : (s.receiver.pending i).toNat = 1 := by
          simp [hr, ReceiverPc.pending, hbit]
        simp only [wakeups] at hle ⊢
        omega
      allProcessed := fun hr hsem hquiet i hi => by
        have hclear := hinv.token.waitBit_of_quiet hr hsem
          fun j hj => (hquiet j hj).2
        apply (hinv.pipe i hi).returned_processed
        · rw [hr]
          rfl
        · have hnot : (s.senders i).signalling = 0 := by
            cases hpc : s.senders i <;>
              simp [SenderPc.signalling, (hquiet i hi).1] at *
          simp [wakeups, hclear i hi, hr, ReceiverPc.pending, hnot]
      signals := hinv.got
      once := fun hr a s' hs => by
        have hne : s.bits ≠ 0 := by
          obtain ⟨_, _, _, hset⟩ := hinv.token.of_not_waiting (by simp [hr])
          obtain ⟨j, _, hj⟩ := hset hr
          exact (ne_zero_iff_getLsbD _).mpr ⟨j, hj⟩
        cases Step.of_step hs with
        | sender hi hs => exact .inl (hs.receiver_eq.trans hr)
        | read hs => cases hs <;> simp_all
        | _ => simp_all
      unposted := hinv.token.unposted }

/-- The receiver waits; two senders signal, the first of them wakes it up, and
it processes both commands before it waits again. -/
theorem no_command_lost_two_senders :
    ∃ s : Dispatcher Nat 63,
      Run (step 2) Any start
        ([.poll, .receiver, .write 0 5, .sender 0, .sender 0, .sender 0,
          .write 1 6, .sender 1, .sender 1, .sender 1, .sender 0] ++
          List.replicate 13 .receiver ++ [.poll, .receiver]) s ∧
      (s.receiver = .wait ∧ s.sem = 0 ∧ s.processed 0 = [some 5] ∧
        s.processed 1 = [some 6]) ∧
      Delivery 2 s :=
  Run.exists_of_exec (by decide +kernel)
    fun _ hrun hs => ⟨hs, no_command_lost (by decide) hrun⟩

/-! ## The loops of `atomic_bitmap_t` -/

/-- `btsr` and `izte` are loops, and `xchg` is one instruction.  What an attempt
stores is computed from the value that the thread has read. -/
def loops (n : Nat) : CasSystem (Dispatcher T waitSignal) (DispatcherAct T)
    (Option Nat) (BitVec (waitSignal + 1)) where
  step := step n
  word s := s.bits
  loop s
    | .sender i => if s.senders i = .signal then some (some i) else none
    | .receiver => if s.receiver = .izte then some none else none
    | _ => none
  attempt s old a := step n { s with bits := old } a
  attempt_word _ _ := rfl

/-- With the reads and the compare-and-swaps of the bitmap in any order, the
threads do nothing they would not do with atomic operations, so that command
passing keeps its invariant; and a thread is held up in its loop at most once
for each change of the bitmap. -/
theorem bitmap_loops_refine (hn : n ≤ waitSignal) {as : List (DispatcherAct T)}
    {s : CasLoop (Dispatcher T waitSignal) _ _}
    (h : Run (CasLoop.step (loops n)) Any (.start start) as s) :
    (∃ bs, bs.Sublist as ∧ Run (step n) Any start bs s.base) ∧ Inv n s.base ∧
      ∀ i, s.failures i ≤ s.changes := by
  obtain ⟨bs, hsub, hrun⟩ := CasLoop.run_base h
  exact ⟨⟨bs, hsub, hrun⟩, Inv.run hn hrun, CasLoop.failures_le h⟩

/-- Both senders have read the bitmap; the second one stores first. -/
def race : List (DispatcherAct Nat) :=
  [.write 0 5, .write 1 6] ++ List.replicate 3 (.sender 0) ++
    List.replicate 4 (.sender 1) ++ List.replicate 3 (.sender 0)

theorem bitmap_loops_refine_race : ∃ s : CasLoop (Dispatcher Nat 63) _ _,
    Run (CasLoop.step (loops 2)) Any (.start start) race s ∧
      s.base.bits = 3 ∧ s.failures (some 0) = 1 ∧ 1 ≤ s.changes := by
  refine Run.exists_of_exec (by decide +kernel)
    fun s hrun hs => ⟨And.left hs, And.right hs, ?_⟩
  have hle := (bitmap_loops_refine (by decide) hrun).2.2 (some 0)
  rwa [hs.2] at hle

end Dispatcher

end ZeroMQ
