import ZeroMQ.Dispatch.Wakeup

/-!
# The command pipes of the dispatcher as drained pipes

Seen from one command pipe, everything the dispatcher, the pollset and the other
threads do is either nothing or a step of the pipe's own two threads: the bit
that a sender raises and the receiver takes carries one wake-up.  So every
interleaving of the dispatcher is, for each of its pipes, one of `DrainSys`, and
a thread that has to serve many senders is let go by each of them.

The run of the drained pipe is the one that the pipe sees of the dispatcher's
run, label by label; it goes on as that goes on.

## Main results

* `Follows.step` — a step of the dispatcher is the step of the drained pipe that
  `view` names, or none.
* `command_pipe_lets_go` — every command pipe lets its reader go, and what the
  receiver has processed is what the drains have returned.
-/

namespace ZeroMQ

open ZeroMQ.Lib

variable {T : Type} {waitSignal : Nat}

/-- The place of a sender in `flush`. -/
def SenderPc.flushPc : SenderPc → FlushPc
  | .set => .set
  | _ => .idle

/-- The place of the receiver in the loop over one pipe. -/
def DrainStage.readPc : Option DrainStage → ReadPc
  | none => .asleep
  | some .read => .read
  | some .fetch => .fetch
  | some .pop => .pop

/-! ## What the drains have returned -/

namespace DrainSys

variable {d d' : DrainSys T} {a : DrainAct T}

/-- The values `read` has returned, drain by drain: those of the drains that
have ended, then those of the drain under way. -/
def returned (d : DrainSys T) : List (Option T) :=
  (d.drains.map Drain.values ++
    if d.reader = .asleep then [] else (d.drain.map Drain.values).toList).flatten

/-- A `flush` of the writer is noted in the drain and changes no value. -/
theorem values_flushed (rc : Bool) (drain : Option (Drain T)) :
    (drain.map (Drain.flushed rc)).map Drain.values =
      drain.map Drain.values := by
  have hsame : Drain.values ∘ Drain.flushed rc = (Drain.values (T := T)) := by
    funext d
    rw [Function.comp_apply, Drain.flushed_eq]
  rw [Option.map_map, hsame]

/-- The steps of the writer leave the reader and its values alone. -/
theorem writer_frame (hwriter : a ≠ .wake ∧ a ≠ .read)
    (h : d.step a = some d') :
    d'.reader = d.reader ∧ d'.drains = d.drains ∧
      d'.drain.map Drain.values = d.drain.map Drain.values := by
  cases a with
  | write value =>
      obtain ⟨_, h⟩ := Option.ite_none_right_eq_some.mp h
      cases h
      exact ⟨rfl, rfl, rfl⟩
  | flush =>
      obtain ⟨_, h⟩ := Option.ite_none_right_eq_some.mp h
      split at h
      · split at h
        · cases h
          exact ⟨rfl, rfl, values_flushed true d.drain⟩
        · cases h
          exact ⟨rfl, rfl, rfl⟩
      · cases h
        exact ⟨rfl, rfl, rfl⟩
  | set =>
      obtain ⟨_, h⟩ := Option.ite_none_right_eq_some.mp h
      cases h
      exact ⟨rfl, rfl, values_flushed false d.drain⟩
  | wake => exact absurd rfl hwriter.1
  | read => exact absurd rfl hwriter.2

/-- The steps of the reader leave the writer and the wake-ups alone. -/
theorem readStep_frame (d : DrainSys T) :
    d.readStep.writer = d.writer ∧ d.readStep.wakeups = d.wakeups := by
  unfold readStep sleep
  constructor
  · grind
  · grind

/-- A step of a reader that is awake adds the value it takes, if it takes one,
to those of the drain under way. -/
theorem returned_readStep {current : Drain T} (ha : d.reader ≠ .asleep)
    (hd : d.drain = some current) :
    d.readStep.returned =
      d.returned ++ (if d.reader = .pop then [d.pipe.load] else []) ∧
      (d.readStep.reader ≠ .asleep → d.readStep.drain.isSome = true) := by
  unfold returned readStep sleep
  cases hreader : d.reader with
  | asleep => exact absurd hreader ha
  | read => grind [Drain.tick]
  | fetch => grind [Drain.tick]
  | pop => simp [hd, Drain.tick]

end DrainSys

namespace Dispatcher

/-- The drained pipe `d` is pipe `i` of the dispatcher, and its drains have
returned what the receiver has processed. -/
structure Follows (i : Nat) (s : Dispatcher T waitSignal) (d : DrainSys T) :
    Prop where
  pipe : d.pipe = s.pipes i
  writer : d.writer = (s.senders i).flushPc
  reader : d.reader = DrainStage.readPc (s.receiver.stage i)
  wakeups : d.wakeups = s.wakeups i
  underway : d.reader ≠ .asleep → d.drain.isSome = true
  processed : d.returned = s.processed i

theorem Follows.start (i : Nat) :
    Follows i (start : Dispatcher T waitSignal) (DrainSys.start true) where
  pipe := rfl
  writer := rfl
  reader := rfl
  wakeups := by
    simp [Dispatcher.start, DrainSys.start, Dispatcher.wakeups,
      ReceiverPc.pending, SenderPc.signalling]
  underway ha := absurd rfl ha
  processed := rfl

variable {n i : Nat} {s s' : Dispatcher T waitSignal} {d d' : DrainSys T}
  {act : DispatcherAct T} {signals : BitVec (waitSignal + 1)}
  {stage : DrainStage}

/-- The drained pipe takes the step that it sees, or none, and gets to where the
dispatcher is. -/
def Followed (i : Nat) (s : Dispatcher T waitSignal) (act : DispatcherAct T)
    (s' : Dispatcher T waitSignal) (d : DrainSys T) : Prop :=
  ∃ d', Run DrainSys.step Any d (s.view i act).toList d' ∧ Follows i s' d'

theorem Followed.of_step {a : DrainAct T} (hview : s.view i act = some a)
    (hstep : d.step a = some d') (h : Follows i s' d') :
    Followed i s act s' d := by
  refine ⟨d', ?_, h⟩
  rw [hview]
  exact .cons trivial hstep (.nil d')

/-- Neither the pipe nor the places of its threads nor the wake-ups owed have
changed. -/
theorem Follows.stutter (h : Follows i s d) (hview : s.view i act = none)
    (hpipe : s'.pipes i = s.pipes i)
    (hsender : (s'.senders i).flushPc = (s.senders i).flushPc)
    (hstage : s'.receiver.stage i = s.receiver.stage i)
    (hwake : s'.wakeups i = s.wakeups i)
    (hprocessed : s'.processed i = s.processed i) : Followed i s act s' d := by
  refine ⟨d, ?_, ?_⟩
  · rw [hview]
    exact .nil d
  · exact
      { pipe := by rw [h.pipe, hpipe]
        writer := by rw [h.writer, hsender]
        reader := by rw [h.reader, hstage]
        wakeups := by rw [h.wakeups, hwake]
        underway := h.underway
        processed := by rw [h.processed, hprocessed] }

theorem Follows.sent {a : DrainAct T} {y : Ypipe T} {pc : SenderPc}
    (h : Follows i s d) (hview : s.view i act = some a)
    (hside : a ≠ .wake ∧ a ≠ .read) (hstep : d.step a = some d')
    (hpipe : d'.pipe = y) (hwriter : d'.writer = pc.flushPc)
    (hwakeups : d'.wakeups + (s.senders i).signalling =
      d.wakeups + pc.signalling) :
    Followed i s act (s.setSender i y pc) d := by
  obtain ⟨hreader, hdrains, hvalues⟩ := DrainSys.writer_frame hside hstep
  refine .of_step hview hstep ?_
  exact
    { pipe := by simp [setSender, hpipe]
      writer := by simp [setSender, hwriter]
      reader := hreader.trans h.reader
      wakeups := by
        have hold := h.wakeups
        simp only [Dispatcher.wakeups] at hold
        simp only [Dispatcher.wakeups, setSender, Function.update_self]
        omega
      underway := fun ha => by
        have hsome := h.underway (hreader ▸ ha)
        rwa [← Option.isSome_map (f := Drain.values), ← hvalues,
          Option.isSome_map] at hsome
      processed := by
        rw [DrainSys.returned, hreader, hdrains, hvalues]
        exact h.processed }

/-- The sender is not inside `flush` unless it is about to store to `c`. -/
theorem Follows.writer_idle (h : Follows i s d) (hpc : s.senders i ≠ .set) :
    d.writer = .idle := by
  rw [h.writer]
  cases hsender : s.senders i with
  | set => exact absurd hsender hpc
  | _ => rfl

theorem Follows.reading (h : Follows i s d)
    (hr : s.receiver = .drain signals i stage) :
    d.reader = DrainStage.readPc (some stage) := by
  simp [h.reader, hr, ReceiverPc.stage]

/-- A step of the receiver inside pipe `i` is one step of `read`. -/
theorem Follows.drained {y : Ypipe T} {pc : ReceiverPc (waitSignal + 1)}
    {processed : Nat → List (Option T)} (h : Follows i s d)
    (hr : s.receiver = .drain signals i stage) (hpipe : d.readStep.pipe = y)
    (hreader : d.readStep.reader = DrainStage.readPc (pc.stage i))
    (hpending : pc.pending i = false)
    (hprocessed : processed i =
      s.processed i ++ if stage = .pop then [(s.pipes i).load] else []) :
    Followed i s .receiver
      { s.setReceiver i y pc with processed := processed } d := by
  have hreading := h.reading hr
  have ha : d.reader ≠ .asleep := by
    rw [hreading]
    cases stage <;> simp [DrainStage.readPc]
  have hpop : d.reader = .pop ↔ stage = .pop := by
    rw [hreading]
    cases stage <;> simp [DrainStage.readPc]
  obtain ⟨current, hd⟩ := Option.isSome_iff_exists.mp (h.underway ha)
  obtain ⟨hwriter, hwakeups⟩ := d.readStep_frame
  obtain ⟨hreturned, hunderway⟩ := DrainSys.returned_readStep ha hd
  refine .of_step (a := .read) (by simp [view, hr]) (if_neg ha) ?_
  exact
    { pipe := by simp [setReceiver, hpipe]
      writer := by rw [hwriter, h.writer]; rfl
      reader := hreader
      wakeups := by
        have hnone : s.receiver.pending i = false := by
          rw [hr, ReceiverPc.pending_drain, ReceiverPc.pending_next]
        rw [hwakeups, h.wakeups]
        simp [Dispatcher.wakeups, setReceiver, hpending, hnone]
      underway := hunderway
      processed := by
        rw [hreturned, h.processed, h.pipe]
        simp only [hpop]
        exact hprocessed.symm }

/-- The steps of sender `i`, of which the pipe does not see the last ones. -/
theorem Follows.senderStep (h : Follows i s d) (hinv : PipeInv s i)
    (hlt : i < waitSignal) (hs : SenderStep i s act s') :
    Followed i s act s' d := by
  cases hs with
  | @write value hpc =>
      have hidle := h.writer_idle (by simp [hpc])
      exact h.sent (if_pos rfl) (by simp) (if_pos hidle) (by rw [h.pipe]) hidle
        (by rw [hpc]; rfl)
  | casNothing hpc hu =>
      rw [hinv.unflushed_of_flush hpc] at hu
      cases hu
  | casFound hpc hc =>
      have hidle := h.writer_idle (by simp [hpc])
      have hstep : d.step .flush = some
          { d with
            pipe := { d.pipe with c := some d.pipe.back, w := d.pipe.back }
            drain := d.drain.map (Drain.flushed true) } := by
        simp [DrainSys.step, hidle, h.pipe, hinv.unflushed_of_flush hpc,
          Ypipe.flushCas_of_eq hc]
      exact h.sent (by simp [view, hpc]) (by simp) hstep (by rw [h.pipe]) hidle
        (by rw [hpc]; rfl)
  | casNull hpc hc =>
      have hstep : d.step .flush = some { d with writer := .set } := by
        simp [DrainSys.step, h.writer_idle (by simp [hpc] : _ ≠ SenderPc.set),
          h.pipe, hinv.unflushed_of_flush hpc, Ypipe.flushCas_of_ne hc]
      exact h.sent (by simp [view, hpc]) (by simp) hstep h.pipe rfl
        (by rw [hpc]; rfl)
  | set hpc =>
      have hset : d.writer = .set := by
        rw [h.writer, hpc]
        rfl
      exact h.sent (a := .set) (by simp [view, hpc]) (by simp) (if_pos hset)
        (by rw [h.pipe]) rfl (by rw [hpc]; rfl)
  | signal hpc =>
      apply h.stutter
      · simp [view, hpc]
      · simp [setSender]
      · rw [hpc]
        simp only [setSender, Function.update_self]
        split
        · rfl
        · rfl
      · rfl
      · exact hinv.wakeups_signal hpc hlt (ite_eq_or_eq ..)
      · rfl
  | post hpc =>
      apply h.stutter
      · simp [view, hpc]
      · simp [setSender]
      · simp [setSender, hpc, SenderPc.flushPc]
      · rfl
      · simp [Dispatcher.wakeups, setSender, hpc, SenderPc.signalling]
      · rfl

/-- The receiver comes to pipe `i`: it takes the wake-up, and a drain begins. -/
theorem Follows.wake (h : Follows i s d)
    (hr : s.receiver = .scan signals i) (hbit : signals.getLsbD i = true) :
    Followed i s .receiver { s with receiver := .drain signals i .read } d := by
  have hpending : s.receiver.pending i = true := by
    simp [hr, ReceiverPc.pending, hbit]
  have hwakeups := h.wakeups
  simp only [Dispatcher.wakeups, hpending, Bool.toNat_true] at hwakeups
  have hasleep : d.reader = .asleep := by
    rw [h.reader, hr]
    rfl
  refine .of_step (a := .wake) (by simp [view, hr, hbit])
    (if_pos ⟨hasleep, by omega⟩) ?_
  exact
    { pipe := h.pipe
      writer := h.writer
      reader := by simp [ReceiverPc.stage, DrainStage.readPc]
      wakeups := by
        simp only [Dispatcher.wakeups, ReceiverPc.pending_drain,
          ReceiverPc.pending_next, Bool.toNat_false]
        omega
      underway := fun _ => rfl
      processed := by
        rw [← h.processed]
        simp [DrainSys.returned, hasleep, Drain.begin] }

theorem Follows.readStep (h : Follows i s d) (hs : ReadStep i s s') :
    Followed i s .receiver s' d := by
  cases hs with
  | wake hr hbit => exact h.wake hr hbit
  | readPop hr hf | fetchFound hr hf | fetchNone hr hf =>
      have hreader := h.reading hr
      apply h.drained hr <;>
        simp [DrainSys.readStep, DrainSys.sleep, hreader, DrainStage.readPc,
          h.pipe, hf, ReceiverPc.stage, ReceiverPc.pending_drain,
          ReceiverPc.pending_next]
  | readStop hr hp hstop | readFetch hr hp hstop =>
      have hreader := h.reading hr
      apply h.drained hr <;>
        simp [DrainSys.readStep, DrainSys.sleep, hreader, DrainStage.readPc,
          h.pipe, hp, hstop, ReceiverPc.stage, ReceiverPc.pending_drain,
          ReceiverPc.pending_next]
  | pop hr =>
      have hreader := h.reading hr
      apply h.drained hr <;>
        simp [DrainSys.readStep, hreader, DrainStage.readPc, h.pipe,
          ReceiverPc.stage, ReceiverPc.pending_drain, ReceiverPc.pending_next]

/-- Every step of the dispatcher is, for pipe `i`, the step that the pipe sees
of it: at most one, and exactly one step of `read` for each step of a receiver
inside the pipe. -/
theorem Follows.step (hn : n ≤ waitSignal) (hi : i < n) (h : Follows i s d)
    (hinv : PipeInv s i) (hs : Step n s act s') : Followed i s act s' d := by
  rcases hs.at_pipe hn hi with hother | hsend | ⟨rfl, hread⟩
  · exact h.stutter hother.unseen hother.pipe
      (congrArg SenderPc.flushPc hother.sender) hother.stage hother.wakeups
      hother.processed
  · exact h.senderStep hinv (Nat.lt_of_lt_of_le hi hn) hsend
  · exact h.readStep hread

/-- Every command pipe lets its reader go: for every interleaving of the senders
with a receiver that polls and processes commands, what the pipe of sender `i`
sees of it is a run of drains, and they have returned the commands that the
receiver has processed. -/
theorem command_pipe_lets_go (hn : n ≤ waitSignal) (hi : i < n)
    {as : List (DispatcherAct T)}
    (h : Run (step n) Any (start : Dispatcher T waitSignal) as s) :
    ∃ d, Run DrainSys.step Any (DrainSys.start true)
        (trace (step n) (view i) (start : Dispatcher T waitSignal) as) d ∧
      Follows i s d ∧ DrainSys.LetsGo d ∧ d.returned = s.processed i := by
  -- The pipe's own invariant says which wake-ups are under way.
  let R (s : Dispatcher T waitSignal) (d : DrainSys T) : Prop :=
    (∀ j < n, PipeInv s j) ∧ Follows i s d
  have hstep : ∀ s a s' d, R s d → Any s a → step n s a = some s' →
      ∃ d', Run DrainSys.step Any d (view i s a).toList d' ∧ R s' d' := by
    rintro s a s' d ⟨hinv, hfollows⟩ _ hs
    have hs := Step.of_step hs
    obtain ⟨d', hrun, hnext⟩ := hfollows.step hn hi (hinv i hi) hs
    exact ⟨d', hrun, PipeInv.step hn hinv hs, hnext⟩
  obtain ⟨d, hrun, _, hfollows⟩ :=
    h.follows hstep ⟨fun j _ => PipeInv.start j, Follows.start i⟩
  have hinv : DrainSys.DrainInv d :=
    hrun.invariant (fun _ _ _ hI _ hstep => hI.step hstep) (.start true)
  exact ⟨d, hrun, hfollows, hinv.letsGo, hfollows.processed⟩

/-- Two commands are sent, the second one after the receiver has slept: it polls
for the first and checks for the second, and drains the pipe twice. -/
theorem command_pipe_lets_go_twice :
    ∃ s : Dispatcher Nat 63,
      Run (step 1) Any start
        (.write 0 5 :: List.replicate 3 (.sender 0) ++
          .poll :: List.replicate 7 .receiver ++
          .write 0 6 :: List.replicate 3 (.sender 0) ++
          .check :: List.replicate 6 .receiver) s ∧
      s.processed 0 = [some 5, some 6] ∧
      ∃ d, Run DrainSys.step Any (DrainSys.start true)
          ([.write 5, .flush, .set, .wake] ++ List.replicate 4 .read ++
            [.write 6, .flush, .set, .wake] ++ List.replicate 4 .read) d ∧
        d.drains.map Drain.values = [[some 5], [some 6]] ∧
        Follows 0 s d ∧ DrainSys.LetsGo d ∧ d.returned = s.processed 0 := by
  refine Run.exists_of_exec (by decide +kernel)
    fun s hrun hprocessed => ⟨hprocessed, ?_⟩
  obtain ⟨d, hdrain, hfollows⟩ :=
    command_pipe_lets_go (by decide) Nat.one_pos hrun
  refine Run.exists_of_exec (by decide +kernel)
    fun d' hdrain' hvalues => ⟨hvalues, ?_⟩
  -- The pipe sees just these labels.
  have hsame : d = d' := Run.unique hdrain hdrain'
  exact hsame ▸ hfollows

end Dispatcher

end ZeroMQ
