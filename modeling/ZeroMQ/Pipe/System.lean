import ZeroMQ.Lib.Run
import ZeroMQ.Pipe.Basic

/-!
# A pipe between two threads

The writer's thread runs `write`, `flush`, `gap`, `terminate_writer` on the
pipes its demux lists, and executes the commands `head` and `terminate_pipe`.
The reader's thread runs `read` and `terminate_reader` on the pipes its mux
lists, and executes `revive` and `terminate_pipe_ack`.  Commands from one
thread to the other arrive in the order they were sent; a thread executes one
between two operations.

An operation is cut at its accesses to the word `c` of the `ypipe_t` and at the
command `flush` sends; everything else an operation touches belongs to its own
thread.  `accepted` and `returned` are histories: what was passed to `write`
or announced by `gap`, and what `read` returned with true.

## Main results

* `Step` — what each label can do, branch by branch, with all its guards.
* `Step.of_step` — the step function does nothing else.
-/

namespace ZeroMQ

open ZeroMQ.Lib

/-- Commands naming the pipe, on their way to the writer's thread. -/
inductive ToSource where
  | head (position : Nat)
  | terminatePipe
  deriving DecidableEq, Repr

/-- Commands naming the pipe, on their way to the reader's thread. -/
inductive ToDestination where
  | revive
  | terminatePipeAck
  deriving DecidableEq, Repr

/-- What is left to do once `flush` has returned. -/
inductive AfterFlush where
  | done
  | swapIn
  | terminate
  deriving DecidableEq, Repr

namespace PipeSys

/-- The writer's thread: between two operations; before the `cas`, before the
plain store and before the `revive` command of `flush`; after `flush`. -/
inductive WriterPc where
  | idle
  | flush (k : AfterFlush)
  | set (k : AfterFlush)
  | revive (k : AfterFlush)
  | resume (k : AfterFlush)
  deriving DecidableEq, Repr

/-- What the flush under way is part of. -/
def WriterPc.after : WriterPc → Option AfterFlush
  | .idle => none
  | .flush k => some k
  | .set k => some k
  | .revive k => some k
  | .resume k => some k

/-- The reader's thread: between two operations; before the prefetch; after a
prefetch that found nothing; before it takes the front message. -/
inductive ReaderPc where
  | idle
  | fetch
  | die
  | pop
  deriving DecidableEq, Repr

end PipeSys

/-- The labels.  Those of the writer's thread come first. -/
inductive PipeAct (M : Type) where
  | write (msg : RawMsg M)
  | flush
  | gap
  | terminateWriter
  | head
  | terminatePipe
  | cas
  | set
  | sendRevive
  | resume
  | read
  | fetch
  | die
  | pop
  | revive
  | terminateReader
  | terminatePipeAck
  deriving DecidableEq, Repr

/-- The state of the pipe, of the two threads as far as they use it, and of the
two command channels. -/
structure PipeSys (M : Type) where
  pipe : Pipe M
  writer : PipeSys.WriterPc
  reader : PipeSys.ReaderPc
  toSource : List ToSource
  toDestination : List ToDestination
  /-- The writer's demux lists the pipe. -/
  inDemux : Bool
  /-- The reader's mux lists the pipe. -/
  inMux : Bool
  /-- `mux_t::initialise_shutdown` has been called: the engine reads no more. -/
  readerDown : Bool
  accepted : List (RawMsg M)
  returned : List (RawMsg M)
  sentTerminatePipe : Nat
  sentTerminatePipeAck : Nat
  deletions : Nat

namespace PipeSys

variable {M : Type}

/-- A new pipe, listed at both ends. -/
def start (p : Pipe M) : PipeSys M :=
  { pipe := p, writer := .idle, reader := .idle, toSource := [],
    toDestination := [], inDemux := true, inMux := true, readerDown := false,
    accepted := [], returned := [], sentTerminatePipe := 0,
    sentTerminatePipeAck := 0, deletions := 0 }

/-- `gap ()` has announced a gap that is not written yet. -/
def announce (s : PipeSys M) : List (RawMsg M) :=
  if s.pipe.delayedGap then s.accepted else s.accepted ++ [.gap]

/-- `terminate_reader`, with the command it sends. -/
def terminateReader (s : PipeSys M) : Option (PipeSys M) :=
  if s.pipe.readerTerminating then some s
  else if s.pipe.source && s.pipe.destination then
    some { s with
      pipe := { s.pipe with readerTerminating := true }
      toSource := s.toSource ++ [.terminatePipe]
      sentTerminatePipe := s.sentTerminatePipe + 1 }
  else none

/-- The rest of `read` once a message has been taken from the front slot. -/
def deliver (s : PipeSys M) (msg : RawMsg M) : Option (PipeSys M) :=
  if msg.isDelimiter then s.terminateReader
  else
    s.pipe.countRead.bind fun (p, report) =>
      if report then
        if s.pipe.source && s.pipe.destination then
          some { s with
            pipe := p
            toSource := s.toSource ++ [.head p.head]
            returned := s.returned ++ [msg] }
        else none
      else some { s with pipe := p, returned := s.returned ++ [msg] }

/-- What follows a `flush` that has returned. -/
def afterFlush (p : Pipe M) : AfterFlush → Option (Pipe M)
  | .done => some p
  | .swapIn => p.swapInEnd.bind Pipe.writeDelayedGap
  | .terminate => some { p with writerTerminating := true }

/-- One step of the writer's thread. -/
def writerStep (s : PipeSys M) : PipeAct M → Option (PipeSys M)
  | .write msg =>
      if s.writer = .idle ∧ s.inDemux ∧ ¬ msg.isDelimiter then
        (s.pipe.write msg).map fun p =>
          { s with pipe := p, accepted := s.accepted ++ [msg] }
      else none
  | .flush =>
      if s.writer = .idle ∧ s.inDemux then
        some { s with writer := .flush .done }
      else none
  | .gap =>
      if s.writer = .idle ∧ s.inDemux then
        if s.pipe.checkWrite then
          (s.pipe.write .gap).map fun p =>
            { s with
              pipe := p
              writer := .flush .done
              accepted := s.accepted ++ [.gap] }
        else
          some { s with
            pipe := { s.pipe with delayedGap := true }
            accepted := s.announce }
      else none
  | .terminateWriter =>
      if s.writer = .idle ∧ s.inDemux then
        if s.pipe.writerTerminating then some s
        else
          some { s with
            pipe := { s.pipe with pipe := s.pipe.pipe.write .delimiter }
            writer := .flush .terminate }
      else none
  | .head =>
      match s.writer, s.toSource with
      | .idle, .head position :: rest =>
          let p := s.pipe.moveHead position
          if p.wantsSwapIn then
            (p.refill p.inSwapMsgCnt).map fun p' =>
              { s with
                pipe := p'
                writer := .flush .swapIn
                toSource := rest }
          else
            p.writeDelayedGap.map fun p' =>
              { s with pipe := p', toSource := rest }
      | _, _ => none
  | .terminatePipe =>
      match s.writer, s.toSource with
      | .idle, .terminatePipe :: rest =>
          if s.pipe.source && s.pipe.destination then
            some { s with
              pipe := { s.pipe with source := false }
              toSource := rest
              toDestination := s.toDestination ++ [.terminatePipeAck]
              inDemux := false
              sentTerminatePipeAck := s.sentTerminatePipeAck + 1 }
          else none
      | _, _ => none
  | .cas =>
      match s.writer with
      | .flush k =>
          if s.pipe.pipe.unflushed then
            let (found, y) := s.pipe.pipe.flushCas
            some { s with
              pipe := { s.pipe with pipe := y }
              writer := if found then .resume k else .set k }
          else some { s with writer := .resume k }
      | _ => none
  | .set =>
      match s.writer with
      | .set k =>
          some { s with
            pipe := { s.pipe with pipe := s.pipe.pipe.flushSet }
            writer := .revive k }
      | _ => none
  | .sendRevive =>
      match s.writer with
      | .revive k =>
          if s.pipe.source && s.pipe.destination then
            some { s with
              writer := .resume k
              toDestination := s.toDestination ++ [.revive] }
          else none
      | _ => none
  | .resume =>
      match s.writer with
      | .resume k =>
          (afterFlush s.pipe k).map fun p =>
            { s with pipe := p, writer := .idle }
      | _ => none
  | _ => none

/-- One step of the reader's thread. -/
def readerStep (s : PipeSys M) : PipeAct M → Option (PipeSys M)
  | .read =>
      if s.reader = .idle ∧ s.inMux ∧ ¬ s.readerDown then
        if s.pipe.alive then
          some { s with
            reader := if s.pipe.pipe.prefetched then .pop else .fetch }
        else some s
      else none
  | .fetch =>
      if s.reader = .fetch then
        let (found, y) := s.pipe.pipe.fetch false
        some { s with
          pipe := { s.pipe with pipe := y }
          reader := if found then .pop else .die }
      else none
  | .die =>
      if s.reader = .die then
        some { s with
          pipe := { s.pipe with alive := false }
          reader := .idle }
      else none
  | .pop =>
      if s.reader = .pop then
        s.pipe.pipe.load.bind fun msg =>
          deliver { s with
            pipe := { s.pipe with pipe := s.pipe.pipe.pop }
            reader := .idle } msg
      else none
  | .revive =>
      match s.reader, s.toDestination with
      | .idle, .revive :: rest =>
          if s.pipe.alive then none
          else
            some { s with
              pipe := { s.pipe with alive := true }
              toDestination := rest }
      | _, _ => none
  | .terminateReader =>
      if s.reader = .idle ∧ s.inMux then
        terminateReader { s with readerDown := true }
      else none
  | .terminatePipeAck =>
      match s.reader, s.toDestination with
      | .idle, .terminatePipeAck :: rest =>
          if s.inMux then
            some { s with
              pipe := { s.pipe with destination := false }
              toDestination := rest
              inMux := false
              deletions := s.deletions + 1 }
          else none
      | _, _ => none
  | _ => none

/-- Either thread takes a step. -/
def step (s : PipeSys M) (a : PipeAct M) : Option (PipeSys M) :=
  (s.writerStep a).or (s.readerStep a)

/-! ## What a step can do -/

/-- The step function, branch by branch. -/
inductive Step : PipeSys M → PipeAct M → PipeSys M → Prop where
  | write {s : PipeSys M} {msg : RawMsg M} {p : Pipe M}
      (hw : s.writer = .idle) (hd : s.inDemux = true)
      (hm : msg ≠ .delimiter) (hp : s.pipe.write msg = some p) :
      Step s (.write msg)
        { s with pipe := p, accepted := s.accepted ++ [msg] }
  | flush {s : PipeSys M} (hw : s.writer = .idle) (hd : s.inDemux = true) :
      Step s .flush { s with writer := .flush .done }
  | gapWritten {s : PipeSys M} {p : Pipe M} (hw : s.writer = .idle)
      (hd : s.inDemux = true) (hc : s.pipe.checkWrite = true)
      (hp : s.pipe.write .gap = some p) :
      Step s .gap
        { s with
          pipe := p
          writer := .flush .done
          accepted := s.accepted ++ [.gap] }
  | gapDelayed {s : PipeSys M} (hw : s.writer = .idle)
      (hd : s.inDemux = true) (hc : s.pipe.checkWrite = false) :
      Step s .gap
        { s with
          pipe := { s.pipe with delayedGap := true }
          accepted := s.announce }
  | terminateWriterAgain {s : PipeSys M} (hw : s.writer = .idle)
      (hd : s.inDemux = true) (ht : s.pipe.writerTerminating = true) :
      Step s .terminateWriter s
  | terminateWriter {s : PipeSys M} (hw : s.writer = .idle)
      (hd : s.inDemux = true) (ht : s.pipe.writerTerminating = false) :
      Step s .terminateWriter
        { s with
          pipe := { s.pipe with pipe := s.pipe.pipe.write .delimiter }
          writer := .flush .terminate }
  | headSwapIn {s : PipeSys M} {position : Nat} {rest : List ToSource}
      {p : Pipe M} (hw : s.writer = .idle)
      (hq : s.toSource = .head position :: rest)
      (hs : (s.pipe.moveHead position).wantsSwapIn = true)
      (hp : (s.pipe.moveHead position).refill s.pipe.inSwapMsgCnt = some p) :
      Step s .head
        { s with pipe := p, writer := .flush .swapIn, toSource := rest }
  | head {s : PipeSys M} {position : Nat} {rest : List ToSource}
      {p : Pipe M} (hw : s.writer = .idle)
      (hq : s.toSource = .head position :: rest)
      (hs : (s.pipe.moveHead position).wantsSwapIn = false)
      (hp : (s.pipe.moveHead position).writeDelayedGap = some p) :
      Step s .head { s with pipe := p, toSource := rest }
  | terminatePipe {s : PipeSys M} {rest : List ToSource}
      (hw : s.writer = .idle) (hq : s.toSource = .terminatePipe :: rest)
      (hsrc : s.pipe.source = true) (hdst : s.pipe.destination = true) :
      Step s .terminatePipe
        { s with
          pipe := { s.pipe with source := false }
          toSource := rest
          toDestination := s.toDestination ++ [.terminatePipeAck]
          inDemux := false
          sentTerminatePipeAck := s.sentTerminatePipeAck + 1 }
  | casNothing {s : PipeSys M} {k : AfterFlush} (hw : s.writer = .flush k)
      (hu : s.pipe.pipe.unflushed = false) :
      Step s .cas { s with writer := .resume k }
  | casFound {s : PipeSys M} {k : AfterFlush} (hw : s.writer = .flush k)
      (hu : s.pipe.pipe.unflushed = true)
      (hc : s.pipe.pipe.c = some s.pipe.pipe.w) :
      Step s .cas
        { s with
          pipe :=
            { s.pipe with
              pipe :=
                { s.pipe.pipe with
                  c := some s.pipe.pipe.back
                  w := s.pipe.pipe.back } }
          writer := .resume k }
  | casNull {s : PipeSys M} {k : AfterFlush} (hw : s.writer = .flush k)
      (hu : s.pipe.pipe.unflushed = true)
      (hc : s.pipe.pipe.c ≠ some s.pipe.pipe.w) :
      Step s .cas { s with writer := .set k }
  | set {s : PipeSys M} {k : AfterFlush} (hw : s.writer = .set k) :
      Step s .set
        { s with
          pipe := { s.pipe with pipe := s.pipe.pipe.flushSet }
          writer := .revive k }
  | sendRevive {s : PipeSys M} {k : AfterFlush} (hw : s.writer = .revive k)
      (hsrc : s.pipe.source = true) (hdst : s.pipe.destination = true) :
      Step s .sendRevive
        { s with
          writer := .resume k
          toDestination := s.toDestination ++ [.revive] }
  | resume {s : PipeSys M} {k : AfterFlush} {p : Pipe M}
      (hw : s.writer = .resume k) (hp : afterFlush s.pipe k = some p) :
      Step s .resume { s with pipe := p, writer := .idle }
  | readDead {s : PipeSys M} (hr : s.reader = .idle) (hm : s.inMux = true)
      (hd : s.readerDown = false) (ha : s.pipe.alive = false) :
      Step s .read s
  | readPop {s : PipeSys M} (hr : s.reader = .idle) (hm : s.inMux = true)
      (hd : s.readerDown = false) (ha : s.pipe.alive = true)
      (hf : s.pipe.pipe.prefetched = true) :
      Step s .read { s with reader := .pop }
  | readFetch {s : PipeSys M} (hr : s.reader = .idle) (hm : s.inMux = true)
      (hd : s.readerDown = false) (ha : s.pipe.alive = true)
      (hf : s.pipe.pipe.prefetched = false) :
      Step s .read { s with reader := .fetch }
  | fetchFound {s : PipeSys M} (hr : s.reader = .fetch)
      (hf : (s.pipe.pipe.fetch false).1 = true) :
      Step s .fetch
        { s with
          pipe := { s.pipe with pipe := (s.pipe.pipe.fetch false).2 }
          reader := .pop }
  | fetchNone {s : PipeSys M} (hr : s.reader = .fetch)
      (hf : (s.pipe.pipe.fetch false).1 = false) :
      Step s .fetch
        { s with
          pipe := { s.pipe with pipe := (s.pipe.pipe.fetch false).2 }
          reader := .die }
  | die {s : PipeSys M} (hr : s.reader = .die) :
      Step s .die
        { s with pipe := { s.pipe with alive := false }, reader := .idle }
  | popDelimiterAgain {s : PipeSys M} (hr : s.reader = .pop)
      (hl : s.pipe.pipe.load = some .delimiter)
      (ht : s.pipe.readerTerminating = true) :
      Step s .pop
        { s with
          pipe := { s.pipe with pipe := s.pipe.pipe.pop }
          reader := .idle }
  | popDelimiter {s : PipeSys M} (hr : s.reader = .pop)
      (hl : s.pipe.pipe.load = some .delimiter)
      (ht : s.pipe.readerTerminating = false) :
      Step s .pop
        { s with
          pipe :=
            { s.pipe with
              pipe := s.pipe.pipe.pop
              readerTerminating := true }
          reader := .idle
          toSource := s.toSource ++ [.terminatePipe]
          sentTerminatePipe := s.sentTerminatePipe + 1 }
  | popQuiet {s : PipeSys M} {msg : RawMsg M} {p : Pipe M}
      (hr : s.reader = .pop) (hl : s.pipe.pipe.load = some msg)
      (hm : msg ≠ .delimiter)
      (hc : { s.pipe with pipe := s.pipe.pipe.pop }.countRead =
        some (p, false)) :
      Step s .pop
        { s with
          pipe := p
          reader := .idle
          returned := s.returned ++ [msg] }
  | popReport {s : PipeSys M} {msg : RawMsg M} {p : Pipe M}
      (hr : s.reader = .pop) (hl : s.pipe.pipe.load = some msg)
      (hm : msg ≠ .delimiter)
      (hc : { s.pipe with pipe := s.pipe.pipe.pop }.countRead =
        some (p, true)) :
      Step s .pop
        { s with
          pipe := p
          reader := .idle
          toSource := s.toSource ++ [.head p.head]
          returned := s.returned ++ [msg] }
  | revive {s : PipeSys M} {rest : List ToDestination}
      (hr : s.reader = .idle) (hq : s.toDestination = .revive :: rest)
      (ha : s.pipe.alive = false) :
      Step s .revive
        { s with
          pipe := { s.pipe with alive := true }
          toDestination := rest }
  | terminateReaderAgain {s : PipeSys M} (hr : s.reader = .idle)
      (hm : s.inMux = true) (ht : s.pipe.readerTerminating = true) :
      Step s .terminateReader { s with readerDown := true }
  | terminateReader {s : PipeSys M} (hr : s.reader = .idle)
      (hm : s.inMux = true) (ht : s.pipe.readerTerminating = false) :
      Step s .terminateReader
        { s with
          pipe := { s.pipe with readerTerminating := true }
          readerDown := true
          toSource := s.toSource ++ [.terminatePipe]
          sentTerminatePipe := s.sentTerminatePipe + 1 }
  | terminatePipeAck {s : PipeSys M} {rest : List ToDestination}
      (hr : s.reader = .idle)
      (hq : s.toDestination = .terminatePipeAck :: rest)
      (hm : s.inMux = true) :
      Step s .terminatePipeAck
        { s with
          pipe := { s.pipe with destination := false }
          toDestination := rest
          inMux := false
          deletions := s.deletions + 1 }

variable {s s' : PipeSys M} {a : PipeAct M}

theorem Step.of_writerStep (h : s.writerStep a = some s') : Step s a s' := by
  cases a with
  | write msg =>
      rw [writerStep] at h
      split at h
      · next hg =>
          obtain ⟨hw, hd, hm⟩ := hg
          obtain ⟨p, hp, rfl⟩ := Option.map_eq_some_iff.mp h
          exact .write hw hd (by rwa [RawMsg.isDelimiter_iff] at hm) hp
      · cases h
  | flush =>
      rw [writerStep] at h
      split at h
      · next hg =>
          cases h
          exact .flush hg.1 hg.2
      · cases h
  | gap =>
      rw [writerStep] at h
      split at h
      · next hg =>
          split at h
          · next hc =>
              obtain ⟨p, hp, rfl⟩ := Option.map_eq_some_iff.mp h
              exact .gapWritten hg.1 hg.2 hc hp
          · next hc =>
              cases h
              exact .gapDelayed hg.1 hg.2 (by simpa using hc)
      · cases h
  | terminateWriter =>
      rw [writerStep] at h
      split at h
      · next hg =>
          split at h
          · next ht =>
              cases h
              exact .terminateWriterAgain hg.1 hg.2 ht
          · next ht =>
              cases h
              exact .terminateWriter hg.1 hg.2 (by simpa using ht)
      · cases h
  | head =>
      rw [writerStep] at h
      split at h
      · next position rest hw hq =>
          dsimp only at h
          split at h
          · next hs =>
              obtain ⟨p, hp, rfl⟩ := Option.map_eq_some_iff.mp h
              exact .headSwapIn hw hq hs hp
          · next hs =>
              obtain ⟨p, hp, rfl⟩ := Option.map_eq_some_iff.mp h
              exact .head hw hq (by simpa using hs) hp
      · cases h
  | terminatePipe =>
      rw [writerStep] at h
      split at h
      · next rest hw hq =>
          split at h
          · next hp =>
              cases h
              rw [Bool.and_eq_true] at hp
              exact .terminatePipe hw hq hp.1 hp.2
          · cases h
      · cases h
  | cas =>
      rw [writerStep] at h
      split at h
      · next k hw =>
          split at h
          · next hu =>
              by_cases hc : s.pipe.pipe.c = some s.pipe.pipe.w
              · rw [Ypipe.flushCas_of_eq hc] at h
                cases h
                exact .casFound hw hu hc
              · rw [Ypipe.flushCas_of_ne hc] at h
                cases h
                exact .casNull hw hu hc
          · next hu =>
              cases h
              exact .casNothing hw (by simpa using hu)
      · cases h
  | set =>
      rw [writerStep] at h
      split at h
      · next k hw =>
          cases h
          exact .set hw
      · cases h
  | sendRevive =>
      rw [writerStep] at h
      split at h
      · next k hw =>
          split at h
          · next hp =>
              cases h
              rw [Bool.and_eq_true] at hp
              exact .sendRevive hw hp.1 hp.2
          · cases h
      · cases h
  | resume =>
      rw [writerStep] at h
      split at h
      · next k hw =>
          obtain ⟨p, hp, rfl⟩ := Option.map_eq_some_iff.mp h
          exact .resume hw hp
      · cases h
  | _ => cases h

private theorem Step.of_pop (hr : s.reader = .pop)
    (h : s.readerStep .pop = some s') : Step s .pop s' := by
  rw [readerStep] at h
  rw [if_pos hr] at h
  obtain ⟨msg, hl, hd⟩ := Option.bind_eq_some_iff.mp h
  unfold deliver at hd
  by_cases hm : msg = .delimiter
  · subst hm
    rw [if_pos (show RawMsg.isDelimiter _ = true from rfl)] at hd
    unfold PipeSys.terminateReader at hd
    split at hd
    · next ht =>
        cases hd
        exact .popDelimiterAgain hr hl ht
    · next ht =>
        split at hd
        · cases hd
          exact .popDelimiter hr hl (by simpa using ht)
        · cases hd
  · rw [if_neg (by rwa [RawMsg.isDelimiter_iff])] at hd
    obtain ⟨⟨p, report⟩, hc, hd⟩ := Option.bind_eq_some_iff.mp hd
    cases report with
    | false =>
        cases hd
        exact .popQuiet hr hl hm hc
    | true =>
        simp only [if_true] at hd
        split at hd
        · cases hd
          exact .popReport hr hl hm hc
        · cases hd

theorem Step.of_readerStep (h : s.readerStep a = some s') : Step s a s' := by
  cases a with
  | read =>
      rw [readerStep] at h
      split at h
      · next hg =>
          obtain ⟨hr, hm, hd⟩ := hg
          have hd : s.readerDown = false := by simpa using hd
          split at h
          · next ha =>
              cases hf : s.pipe.pipe.prefetched with
              | true =>
                  simp only [hf, if_true, Option.some.injEq] at h
                  subst h
                  exact .readPop hr hm hd ha hf
              | false =>
                  simp only [hf, Bool.false_eq_true, if_false,
                    Option.some.injEq] at h
                  subst h
                  exact .readFetch hr hm hd ha hf
          · next ha =>
              cases h
              exact .readDead hr hm hd (by simpa using ha)
      · cases h
  | fetch =>
      rw [readerStep] at h
      split at h
      · next hr =>
          cases hf : (s.pipe.pipe.fetch false).1 with
          | true =>
              simp only [hf, if_true, Option.some.injEq] at h
              subst h
              exact .fetchFound hr hf
          | false =>
              simp only [hf, Bool.false_eq_true, if_false,
                Option.some.injEq] at h
              subst h
              exact .fetchNone hr hf
      · cases h
  | die =>
      rw [readerStep] at h
      split at h
      · next hr =>
          cases h
          exact .die hr
      · cases h
  | pop =>
      by_cases hr : s.reader = .pop
      · exact Step.of_pop hr h
      · rw [readerStep] at h
        rw [if_neg hr] at h
        cases h
  | revive =>
      rw [readerStep] at h
      split at h
      · next rest hr hq =>
          split at h
          · cases h
          · next ha =>
              cases h
              exact .revive hr hq (by simpa using ha)
      · cases h
  | terminateReader =>
      rw [readerStep] at h
      split at h
      · next hg =>
          unfold PipeSys.terminateReader at h
          split at h
          · next ht =>
              cases h
              exact .terminateReaderAgain hg.1 hg.2 ht
          · next ht =>
              split at h
              · cases h
                exact .terminateReader hg.1 hg.2 (by simpa using ht)
              · cases h
      · cases h
  | terminatePipeAck =>
      rw [readerStep] at h
      split at h
      · next rest hr hq =>
          split at h
          · next hm =>
              cases h
              exact .terminatePipeAck hr hq hm
          · cases h
      · cases h
  | _ => cases h

theorem Step.of_step (h : s.step a = some s') : Step s a s' := by
  unfold step at h
  rcases Option.or_eq_some_iff.mp h with h | ⟨_, h⟩
  · exact .of_writerStep h
  · exact .of_readerStep h

theorem afterFlush_cases {p p' : Pipe M} {k : AfterFlush}
    (h : afterFlush p k = some p') :
    (k = .done ∧ p' = p) ∨
      (k = .swapIn ∧ p.inSwapMsgCnt ≠ 0 ∧ p' = p) ∨
      (k = .swapIn ∧ p.inSwapMsgCnt = 0 ∧ p.damMsgs = [] ∧
        p' = { p with swapping := false }) ∨
      (k = .terminate ∧ p' = { p with writerTerminating := true }) := by
  cases k with
  | done =>
      cases h
      simp
  | swapIn =>
      obtain ⟨q, hq, h⟩ := Option.bind_eq_some_iff.mp h
      rw [(Pipe.writeDelayedGap_cases h).1]
      rcases Pipe.swapInEnd_cases hq with ⟨hne, rfl⟩ | ⟨h0, hnil, rfl⟩
      · exact .inr (.inl ⟨rfl, hne, rfl⟩)
      · exact .inr (.inr (.inl ⟨rfl, h0, hnil, rfl⟩))
  | terminate =>
      cases h
      simp

/-- What follows a flush leaves the `ypipe_t` and the reader's members alone. -/
theorem afterFlush_frame {p p' : Pipe M} {k : AfterFlush}
    (h : afterFlush p k = some p') : p'.pipe = p.pipe ∧ p'.alive = p.alive := by
  rcases afterFlush_cases h with
    ⟨_, rfl⟩ | ⟨_, _, rfl⟩ | ⟨_, _, _, rfl⟩ | ⟨_, rfl⟩ <;>
  exact ⟨rfl, rfl⟩

theorem invariant_of_step {ok : PipeSys M → PipeAct M → Prop}
    {I : PipeSys M → Prop}
    (hstep : ∀ s a s', I s → ok s a → Step s a s' → I s')
    {as : List (PipeAct M)} (h : Run step ok s as s') (h0 : I s) : I s' :=
  h.invariant (fun t a t' hI hok hs => hstep t a t' hI hok (.of_step hs)) h0

end PipeSys

end ZeroMQ
