import ZeroMQ.Engine.Basic
import ZeroMQ.Lib.Entries
import ZeroMQ.Pipe.Basic

/-!
# The pipes attached to an engine

A `bp_tcp_engine_t` keeps the pipes it reads in a `mux_t` and the pipes it
writes in a demux, which for an accepted connection is a `publisher_t`.  Pipes
are attached by the commands `receive_from` and `send_to` and dropped once the
other side has answered to their termination.  An engine that loses its
connection for good asks all its pipes to shut down; a pipe may still be on its
way to the engine then.

Of a pipe this module has the end that belongs to the engine.  What the other
end does to it, messages that arrive and room that is made, is a part of the
labels.

## Main definitions

* `PipeMux`, `Publisher` — the two lists of pipes, as a mux and a demux.
* `BpTcpEngine.attachedStep` — the engine with the commands that change them.

## Main results

* `ShutInv` and the lemmas in its name — what holds of the mux and the demux
  once they are shut down holds in every later handler.
* `pipes_shut_down` — an engine that is shutting down has shut down all its
  pipes, provided that no `send_to` comes so late.
* `late_pipe_not_shut_down` — a pipe that does is not told.
-/

namespace ZeroMQ

open ZeroMQ.Lib

/-! ## `mux_t` -/

/-- The reader's end of a pipe: the messages it will find, and
`reader_terminating`. -/
structure ReaderEnd where
  pipe : Nat
  queue : List (RawMsg Message)
  readerTerminating : Bool
  deriving DecidableEq, Repr

namespace ReaderEnd

/-- `terminate_reader`; the flag says that the request has been sent. -/
def terminateReader (p : ReaderEnd) : ReaderEnd :=
  { p with readerTerminating := true }

/-- `pipe_t::read`.  The delimiter starts the shutdown of the pipe; a gap
notification is a message of size zero to the encoder. -/
def read (p : ReaderEnd) : Option Message × ReaderEnd :=
  match p.queue with
  | [] => (none, p)
  | .delimiter :: rest => (none, { p with queue := rest }.terminateReader)
  | .gap :: rest => (some [], { p with queue := rest })
  | .data message :: rest => (some message, { p with queue := rest })

theorem read_terminating {p : ReaderEnd} (h : p.readerTerminating = true) :
    p.read.2.readerTerminating = true := by
  unfold read
  split
  · exact h
  · rfl
  · exact h
  · exact h

end ReaderEnd

/-- `mux_t`. -/
structure PipeMux where
  pipes : List ReaderEnd
  current : Nat
  deriving DecidableEq, Repr

namespace PipeMux

variable {m : PipeMux}

/-- The loop of `mux_t::read`. -/
def readLoop : Nat → PipeMux → Option Message × PipeMux
  | 0, m => (none, m)
  | toProcess + 1, m =>
      match m.pipes[m.current]? with
      | none => (none, m)
      | some p =>
          let m' : PipeMux :=
            { pipes := m.pipes.set m.current p.read.2
              current :=
                if m.current + 1 = m.pipes.length then 0 else m.current + 1 }
          match p.read.1 with
          | some message => (some message, m')
          | none => readLoop toProcess m'

instance : Mux PipeMux where
  read m := m.readLoop m.pipes.length
  empty m := m.pipes.isEmpty
  initialiseShutdown m :=
    { m with pipes := m.pipes.map ReaderEnd.terminateReader }

/-- Change the end of one pipe. -/
def update (m : PipeMux) (pipe : Nat) (f : ReaderEnd → ReaderEnd) : PipeMux :=
  { m with pipes := m.pipes.map fun p => if p.pipe = pipe then f p else p }

/-- `mux_t::receive_from`. -/
def receiveFrom (m : PipeMux) (p : ReaderEnd) : PipeMux :=
  { m with pipes := m.pipes ++ [p] }

/-- `mux_t::release_pipe`, which asserts that the pipe is there. -/
def releasePipe (m : PipeMux) (pipe : Nat) : Option PipeMux :=
  if m.pipes.any fun p => p.pipe = pipe then
    let pipes := m.pipes.eraseP fun p => p.pipe = pipe
    some
      { pipes := pipes
        current := if m.current = pipes.length then 0 else m.current }
  else none

/-- All pipes have been told to shut down. -/
def Down (m : PipeMux) : Prop := ∀ p ∈ m.pipes, p.readerTerminating = true
  deriving Decidable

theorem Down.readLoop (h : m.Down) (toProcess : Nat) :
    (m.readLoop toProcess).2.Down := by
  induction toProcess generalizing m with
  | zero => exact h
  | succ toProcess ih =>
      unfold PipeMux.readLoop
      split
      · exact h
      · next p hp =>
          have hread : ∀ q ∈ m.pipes.set m.current p.read.2,
              q.readerTerminating = true :=
            forall_mem_set h
              (ReaderEnd.read_terminating (h p (List.mem_of_getElem? hp)))
          dsimp only
          split
          · exact hread
          · exact ih hread

theorem down_initialiseShutdown (m : PipeMux) :
    (Mux.initialiseShutdown m).Down := by
  intro p hp
  obtain ⟨q, _, rfl⟩ := List.mem_map.mp hp
  rfl

theorem Down.update (h : m.Down) {f : ReaderEnd → ReaderEnd}
    (hf : ∀ p, (f p).readerTerminating = p.readerTerminating) (pipe : Nat) :
    (m.update pipe f).Down := by
  intro p hp
  obtain ⟨q, hq, rfl⟩ := List.mem_map.mp hp
  split
  · rw [hf, h q hq]
  · exact h q hq

theorem Down.receiveFrom (h : m.Down) {p : ReaderEnd}
    (hp : p.readerTerminating = true) : (m.receiveFrom p).Down := by
  intro q hq
  rcases List.mem_append.mp hq with hold | hnew
  · exact h q hold
  · rw [List.mem_singleton.mp hnew, hp]

theorem Down.releasePipe {m' : PipeMux} {pipe : Nat} (h : m.Down)
    (hm : m.releasePipe pipe = some m') : m'.Down := by
  obtain ⟨_, hm⟩ := Option.ite_none_right_eq_some.mp hm
  cases hm
  exact fun p hp => h p (List.mem_of_mem_eraseP hp)

end PipeMux

/-! ## `publisher_t` -/

/-- The writer's end of a pipe: how many messages `check_write` lets through,
if there is a limit, and `writer_terminating`. -/
structure WriterEnd where
  pipe : Nat
  room : Option Nat
  writerTerminating : Bool
  deriving DecidableEq, Repr

namespace WriterEnd

/-- `terminate_writer`; the flag says that the delimiter has been written. -/
def terminateWriter (p : WriterEnd) : WriterEnd :=
  { p with writerTerminating := true }

/-- `check_write`. -/
def checkWrite (p : WriterEnd) : Bool := p.room != some 0

/-- `write`, of a message or of a gap notification. -/
def write (p : WriterEnd) : WriterEnd :=
  { p with room := p.room.map fun n => n - 1 }

/-- `gap`, which is delayed if there is no room. -/
def gap (p : WriterEnd) : WriterEnd := if p.checkWrite then p.write else p

theorem gap_writerTerminating (p : WriterEnd) :
    p.gap.writerTerminating = p.writerTerminating := by
  unfold gap
  split <;> rfl

end WriterEnd

/-- `publisher_t`. -/
structure Publisher where
  pipes : List WriterEnd
  deriving DecidableEq, Repr

namespace Publisher

variable {d : Publisher}

instance : IDemux Publisher where
  write d _ :=
    if d.pipes.all WriterEnd.checkWrite then
      (true, ⟨d.pipes.map WriterEnd.write⟩)
    else (false, d)
  gap d := ⟨d.pipes.map WriterEnd.gap⟩
  flush d := d
  initialiseShutdown d := ⟨d.pipes.map WriterEnd.terminateWriter⟩

/-- Change the end of one pipe. -/
def update (d : Publisher) (pipe : Nat) (f : WriterEnd → WriterEnd) :
    Publisher :=
  ⟨d.pipes.map fun p => if p.pipe = pipe then f p else p⟩

/-- `publisher_t::send_to`. -/
def sendTo (d : Publisher) (p : WriterEnd) : Publisher := ⟨d.pipes ++ [p]⟩

/-- `publisher_t::release_pipe`. -/
def releasePipe (d : Publisher) (pipe : Nat) : Publisher :=
  ⟨d.pipes.eraseP fun p => p.pipe = pipe⟩

/-- All pipes have been told to shut down. -/
def Down (d : Publisher) : Prop := ∀ p ∈ d.pipes, p.writerTerminating = true
  deriving Decidable

theorem Down.map (h : d.Down) {f : WriterEnd → WriterEnd}
    (hf : ∀ p, (f p).writerTerminating = p.writerTerminating) :
    Down ⟨d.pipes.map f⟩ := by
  intro p hp
  obtain ⟨q, hq, rfl⟩ := List.mem_map.mp hp
  rw [hf, h q hq]

theorem Down.write (h : d.Down) (message : Message) :
    (IDemux.write d message).2.Down := by
  show Down (if d.pipes.all WriterEnd.checkWrite then
      (true, ⟨d.pipes.map WriterEnd.write⟩) else (false, d)).2
  split
  · exact h.map fun _ => rfl
  · exact h

theorem Down.gap (h : d.Down) : (IDemux.gap d).Down :=
  h.map WriterEnd.gap_writerTerminating

theorem down_initialiseShutdown (d : Publisher) :
    (IDemux.initialiseShutdown d).Down := by
  intro p hp
  obtain ⟨q, _, rfl⟩ := List.mem_map.mp hp
  rfl

theorem Down.update (h : d.Down) {f : WriterEnd → WriterEnd}
    (hf : ∀ p, (f p).writerTerminating = p.writerTerminating) (pipe : Nat) :
    (d.update pipe f).Down := by
  apply h.map
  intro p
  split
  · exact hf p
  · rfl

theorem Down.releasePipe (h : d.Down) (pipe : Nat) :
    (d.releasePipe pipe).Down :=
  fun p hp => h p (List.mem_of_mem_eraseP hp)

end Publisher

/-! ## What lasts once the pipes are shut down -/

/-- Properties of a mux and of a demux that the shutdown brings about and that
no call by the codecs ends. -/
structure Lasting {μ δ : Type} [Mux μ] [IDemux δ] (M : μ → Prop)
    (D : δ → Prop) : Prop where
  shutMux : ∀ m, M (Mux.initialiseShutdown m)
  read : ∀ m, M m → M (Mux.read m).2
  shutDemux : ∀ d, D (IDemux.initialiseShutdown d)
  write : ∀ d message, D d → D (IDemux.write d message).2
  gap : ∀ d, D d → D (IDemux.gap d)
  flush : ∀ d, D d → D (IDemux.flush d)

theorem lasting_down : Lasting PipeMux.Down Publisher.Down where
  shutMux := PipeMux.down_initialiseShutdown
  read m h := h.readLoop m.pipes.length
  shutDemux := Publisher.down_initialiseShutdown
  write _ message h := h.write message
  gap _ h := h.gap
  flush _ h := h

section Lasting

variable {μ δ : Type} [Mux μ] [IDemux δ] {M : μ → Prop} {D : δ → Prop}

/-- An action of the encoder reads from the mux at most once. -/
theorem Lasting.encoderAction (hl : Lasting M D) {st : BpEncoderState}
    {d : BpEncoderData μ} (h : M d.mux) : M (BpEncoder.action st d).2.mux := by
  cases st with
  | sizeReady => exact h
  | messageReady =>
      have hread := hl.read _ h
      unfold BpEncoder.action
      dsimp only
      split
      · next heq =>
          rw [heq] at hread
          exact hread
      · next heq =>
          rw [heq] at hread
          exact hread

theorem Lasting.encoderRead (hl : Lasting M D) {e : BpEncoder μ}
    (h : M e.derived.mux) (size : Nat) : M (e.read size).1.derived.mux := by
  have hlast : ∀ {e' : BpEncoder μ} {r}, M e'.derived.mux →
      BpEncoder.action e'.next e'.derived = r → M r.2.mux := by
    rintro e' r h rfl
    exact hl.encoderAction h
  refine Encoder.readLoop_invariant
    (I := fun (e' : BpEncoder μ) (_ : List UInt8) => M e'.derived.mux)
    ?_ ?_ ?_ ?_ e [] none h
  · exact fun e' out n h => h
  · exact fun e' out b h => h
  · exact fun e' out step derived h _ hact => hlast h hact
  · exact fun e' out derived h _ hact => hlast h hact

/-- An action of the decoder writes to the demux at most once. -/
theorem Lasting.decoderAction (hl : Lasting M D) {st : BpDecoderState}
    {buf : List UInt8} {d : BpDecoderData δ} (h : D d.demux) :
    D (BpDecoder.action st buf d).2.demux := by
  cases st with
  | oneByteSizeReady =>
      unfold BpDecoder.action
      dsimp only
      split
      · exact h
      · exact h
  | eightByteSizeReady => exact h
  | messageReady =>
      have hwrite := hl.write _ buf h
      unfold BpDecoder.action
      dsimp only
      split
      · next heq =>
          rw [heq] at hwrite
          exact hwrite
      · next heq =>
          rw [heq] at hwrite
          exact hwrite

theorem Lasting.decoderWrite (hl : Lasting M D) {d : BpDecoder δ}
    (h : D d.derived.demux) (data : List UInt8) :
    D (d.write data).1.derived.demux := by
  have hlast : ∀ {d' : BpDecoder δ} {r}, D d'.derived.demux →
      BpDecoder.action d'.next d'.buf d'.derived = r → D r.2.demux := by
    rintro d' r h rfl
    exact hl.decoderAction h
  refine Decoder.write_invariant
    (I := fun (d' : BpDecoder δ) (_ : List UInt8) => D d'.derived.demux)
    ?_ ?_ ?_ d data [] h
  · exact fun d' seen bytes h _ => h
  · exact fun d' seen toRead next derived h _ hact => hlast h hact
  · exact fun d' seen derived h _ hact => hlast h hact

end Lasting

namespace BpTcpEngine

section Shut

variable {μ δ : Type} {M : μ → Prop} {D : δ → Prop}
  {e e' : BpTcpEngine μ δ} {env : EngineEnv}

/-- Once the engine is shutting down, `M` holds of its mux and `D` of its
demux. -/
def ShutInv (M : μ → Prop) (D : δ → Prop) (e : BpTcpEngine μ δ) : Prop :=
  e.state = .shuttingDown → M e.encoder.derived.mux ∧ D e.decoder.derived.demux

namespace ShutInv

theorem of_state (h : e.state ≠ .shuttingDown) : ShutInv M D e :=
  fun hs => (h hs).elim

/-- The mux or the demux that a command leaves behind is as good as the one it
has found, to an engine that is shutting down. -/
def Keeps (M : μ → Prop) (D : δ → Prop) (e : BpTcpEngine μ δ) :
    EngineAct μ δ → Prop
  | .head demux _ => D e.decoder.derived.demux → D demux
  | .revive mux _ => M e.encoder.derived.mux → M mux
  | .sendTo demux =>
      e.state = .shuttingDown → D e.decoder.derived.demux → D demux
  | .receiveFrom mux =>
      e.state = .shuttingDown → M e.encoder.derived.mux → M mux
  | .pipes mux demux =>
      (M e.encoder.derived.mux → M mux) ∧
        (D e.decoder.derived.demux → D demux)
  | _ => True

theorem sendTo (h : ShutInv M D e) {demux : δ}
    (hk : Keeps M D e (.sendTo demux)) : ShutInv M D (e.sendTo demux) := by
  intro hs
  unfold BpTcpEngine.sendTo at hs ⊢
  dsimp only at hs ⊢
  split at hs
  · next hc =>
      have hstate : e.state = .shuttingDown := hs
      rw [show e.state = .connected from hc.1] at hstate
      cases hstate
  · next hc =>
      rw [if_neg hc]
      exact ⟨(h hs).1, hk hs (h hs).2⟩

theorem receiveFrom (h : ShutInv M D e) {mux : μ}
    (hk : Keeps M D e (.receiveFrom mux)) :
    ShutInv M D (e.receiveFrom mux) := by
  have hset : ShutInv M D
      { e.mapMux fun _ => mux with pipeCnt := e.pipeCnt + 1 } :=
    fun hs => ⟨hk hs (h hs).1, (h hs).2⟩
  unfold BpTcpEngine.receiveFrom
  dsimp only
  split
  · split
    · exact hset
    · exact hset
  · exact hset

variable [Mux μ] [IDemux δ]

theorem kept (hl : Lasting M D) : Kept (ShutInv (μ := μ) (δ := δ) M D) where
  aside h haside hs := by
    rw [haside.encoder, haside.decoder]
    exact h (haside.state ▸ hs)
  state _ _ hne := of_state hne
  encode h hs := ⟨hl.encoderRead (h hs).1 _, (h hs).2⟩
  decode _ h hs := ⟨(h hs).1, hl.decoderWrite (h hs).2 _⟩
  flush h hs := ⟨(h hs).1, hl.flush _ (h hs).2⟩
  discard {e} h := by
    unfold discard
    split
    · next hc =>
        apply of_state
        show e.state ≠ .shuttingDown
        rw [hc]
        exact nofun
    · exact h
  shut _ _ := ⟨hl.shutMux _, hl.shutDemux _⟩

/-- Every handler leaves the pipes shut down. -/
theorem step (hl : Lasting M D) (h : ShutInv M D e) {act : EngineAct μ δ}
    (hk : Keeps M D e act) (hstep : Step e act e') : ShutInv M D e' := by
  have hkept := kept hl
  cases hstep with
  | register hp => exact hkept.registerEvent h _
  | inEvent hreg => exact hkept.inEvent h .poller _
  | outEvent hreg => exact hkept.outEvent h _
  | timer ht => exact hkept.timerEvent h _
  | @head demux env hp =>
      have hset : ShutInv M D (e.mapDemux fun _ => demux) :=
        fun hs => ⟨(h hs).1, hk (h hs).2⟩
      exact hkept.inEvent hset .head _
  | @revive mux env hp =>
      have hset : ShutInv M D (e.mapMux fun _ => mux) :=
        fun hs => ⟨hk (h hs).1, (h hs).2⟩
      exact hkept.revive _ hset env
  | sendTo hp => exact h.sendTo hk
  | receiveFrom hp => exact h.receiveFrom hk
  | pipes => exact fun hs => ⟨hk.1 (h hs).1, hk.2 (h hs).2⟩

end ShutInv

end Shut

/-! ## The commands -/

/-- The events and commands of an engine with its pipes.  `arrive` is the
writer of a pipe that flushes messages to a reader that is awake; `revive` and
`head` come with the messages there are now and with the room there is now. -/
inductive AttachedAct where
  | register (env : EngineEnv)
  | inEvent (env : EngineEnv)
  | outEvent (env : EngineEnv)
  | timer (env : EngineEnv)
  | arrive (pipe : Nat) (messages : List (RawMsg Message))
  | revive (pipe : Nat) (messages : List (RawMsg Message)) (env : EngineEnv)
  | head (pipe : Nat) (room : Option Nat) (env : EngineEnv)
  | sendTo (pipe : Nat) (room : Option Nat)
  | receiveFrom (pipe : Nat) (messages : List (RawMsg Message))
  | terminatePipe (pipe : Nat)
  | terminatePipeAck (pipe : Nat)
  deriving DecidableEq, Repr

/-- `messages` have been flushed to the pipe. -/
def arrived (messages : List (RawMsg Message)) (p : ReaderEnd) : ReaderEnd :=
  { p with queue := p.queue ++ messages }

/-- `set_head` has changed the room in the pipe. -/
def roomed (room : Option Nat) (p : WriterEnd) : WriterEnd :=
  { p with room := room }

/-- A new pipe, as `receive_from` leaves it: it is terminated at once if the
engine is shutting down. -/
def newReader (e : BpTcpEngine PipeMux Publisher) (pipe : Nat)
    (messages : List (RawMsg Message)) : ReaderEnd :=
  let p : ReaderEnd := ⟨pipe, messages, false⟩
  if e.state = .shuttingDown then p.terminateReader else p

/-- What the commands make of the mux and the demux; `none` is the failed
assertion of `mux_t::release_pipe`. -/
def command (e : BpTcpEngine PipeMux Publisher) (act : AttachedAct) :
    Option (EngineAct PipeMux Publisher) :=
  let mux := e.encoder.derived.mux
  let demux := e.decoder.derived.demux
  match act with
  | .register env => some (.register env)
  | .inEvent env => some (.inEvent env)
  | .outEvent env => some (.outEvent env)
  | .timer env => some (.timer env)
  | .arrive pipe messages =>
      some (.pipes (mux.update pipe (arrived messages)) demux)
  | .revive pipe messages env =>
      some (.revive (mux.update pipe (arrived messages)) env)
  | .head pipe room env =>
      some (.head (demux.update pipe (roomed room)) env)
  | .sendTo pipe room => some (.sendTo (demux.sendTo ⟨pipe, room, false⟩))
  | .receiveFrom pipe messages =>
      some (.receiveFrom (mux.receiveFrom (e.newReader pipe messages)))
  | .terminatePipe pipe => some (.pipes mux (demux.releasePipe pipe))
  | .terminatePipeAck pipe =>
      (mux.releasePipe pipe).map fun mux => .pipes mux demux

/-- One event or command. -/
def attachedStep (e : BpTcpEngine PipeMux Publisher) (act : AttachedAct) :
    Option (BpTcpEngine PipeMux Publisher) :=
  match e.command act with
  | some act => e.step act
  | none => if e.aborted then none else some e.abort

/-- No pipe to write to is attached to an engine that is shutting down. -/
def Timely (e : BpTcpEngine PipeMux Publisher) : AttachedAct → Prop
  | .sendTo _ _ => e.state ≠ .shuttingDown
  | _ => True

instance (e : BpTcpEngine PipeMux Publisher) (act : AttachedAct) :
    Decidable (e.Timely act) :=
  match act with
  | .sendTo _ _ => inferInstanceAs (Decidable (e.state ≠ .shuttingDown))
  | .register _ | .inEvent _ | .outEvent _ | .timer _ | .arrive _ _
  | .revive _ _ _ | .head _ _ _ | .receiveFrom _ _ | .terminatePipe _
  | .terminatePipeAck _ => .isTrue trivial

/-- All pipes of an engine that is shutting down have been told so. -/
def PipesDown (e : BpTcpEngine PipeMux Publisher) : Prop :=
  ShutInv PipeMux.Down Publisher.Down e

/-- A pipe to read from that is attached late is told at once, one to write to
is not. -/
theorem command_keeps {e : BpTcpEngine PipeMux Publisher} {act : AttachedAct}
    {act' : EngineAct PipeMux Publisher} (hok : e.Timely act)
    (h : e.command act = some act') :
    ShutInv.Keeps PipeMux.Down Publisher.Down e act' := by
  cases act with
  | register env | inEvent env | outEvent env | timer env =>
      cases h
      trivial
  | arrive pipe messages =>
      cases h
      refine ⟨fun hm => ?_, id⟩
      exact hm.update (f := arrived messages) (fun _ => rfl) pipe
  | revive pipe messages env =>
      cases h
      exact fun hm => hm.update (f := arrived messages) (fun _ => rfl) pipe
  | head pipe room env =>
      cases h
      exact fun hd => hd.update (f := roomed room) (fun _ => rfl) pipe
  | sendTo pipe room =>
      cases h
      exact fun hs => (hok hs).elim
  | receiveFrom pipe messages =>
      cases h
      intro hs hm
      have hnew : (e.newReader pipe messages).readerTerminating = true := by
        rw [newReader, if_pos hs]
        rfl
      exact hm.receiveFrom hnew
  | terminatePipe pipe =>
      cases h
      exact ⟨id, fun hd => hd.releasePipe pipe⟩
  | terminatePipeAck pipe =>
      obtain ⟨mux, hmux, rfl⟩ := Option.map_eq_some_iff.mp h
      exact ⟨fun hm => hm.releasePipe hmux, id⟩

theorem PipesDown.step {e e' : BpTcpEngine PipeMux Publisher}
    {act : AttachedAct} (h : PipesDown e) (hok : e.Timely act)
    (hstep : e.attachedStep act = some e') : PipesDown e' := by
  unfold attachedStep at hstep
  split at hstep
  · next act' hact =>
      exact ShutInv.step lasting_down h (command_keeps hok hact)
        (Step.of_step hstep).2
  · obtain ⟨_, hstep⟩ := Option.ite_none_left_eq_some.mp hstep
    cases hstep
    exact fun hs => h hs

end BpTcpEngine

open BpTcpEngine

/-- Every pipe gets shut down: in every run of an accepted engine in which no
`send_to` reaches it while it is shutting down, whatever the order of its
registration, the errors of its socket and the commands, an engine in that state
has called `terminate_writer` on each pipe its demux lists and
`terminate_reader` on each pipe its mux lists. -/
theorem pipes_shut_down {writebufSize readbufSize fd handle : Nat}
    {acts : List AttachedAct} {e : BpTcpEngine PipeMux Publisher}
    (h : Run attachedStep Timely
      (accepted writebufSize readbufSize ⟨[], 0⟩ ⟨[]⟩ fd handle) acts e)
    (hs : e.state = .shuttingDown) :
    (∀ p ∈ e.decoder.derived.demux.pipes, p.writerTerminating = true) ∧
      ∀ p ∈ e.encoder.derived.mux.pipes, p.readerTerminating = true := by
  have hinv : PipesDown e :=
    h.invariant (fun _ _ _ hI hok hstep => PipesDown.step hI hok hstep)
      (ShutInv.of_state nofun)
  exact ⟨(hinv hs).2, (hinv hs).1⟩

/-- A failed read on a connection. -/
def resetByPeer : EngineEnv :=
  { read := none, write := none, socketError := false, reopen := none,
    handle := 3, handlerOk := true }

/-- An engine is registered, given a pipe for either direction, and loses its
connection; then the pipe `1` is attached to its mux. -/
theorem pipes_shut_down_reset :
    ∃ e, Run attachedStep Timely (accepted 16 16 ⟨[], 0⟩ ⟨[]⟩ 7 0)
        [.register resetByPeer, .sendTo 0 none, .inEvent resetByPeer,
          .receiveFrom 1 []] e ∧
      e.state = .shuttingDown ∧
      e.decoder.derived.demux.pipes = [⟨0, none, true⟩] ∧
      e.encoder.derived.mux.pipes = [⟨1, [], true⟩] ∧
      (∀ p ∈ e.decoder.derived.demux.pipes, p.writerTerminating = true) ∧
        ∀ p ∈ e.encoder.derived.mux.pipes, p.readerTerminating = true :=
  Run.exists_of_exec (by decide +kernel) fun _ hrun hs =>
    ⟨And.left hs, And.left (And.right hs), And.right (And.right hs),
      pipes_shut_down hrun (And.left hs)⟩

/-- The same failure before the command `send_to` is handled.  The pipe joins
the demux, and `terminate_writer` is not called. -/
theorem late_pipe_not_shut_down :
    ∃ e, Run attachedStep Any (accepted 16 16 ⟨[], 0⟩ ⟨[]⟩ 7 0)
        [.register resetByPeer, .inEvent resetByPeer, .sendTo 0 none] e ∧
      e.state = .shuttingDown ∧
      ¬ ∀ p ∈ e.decoder.derived.demux.pipes, p.writerTerminating = true :=
  Run.of_exec_any (by decide +kernel)

end ZeroMQ
