import ZeroMQ.Amqp.Client
import ZeroMQ.Amqp.Frames
import ZeroMQ.Lib.Run

/-!
# The buffers of the AMQP client

`in_event` gives the bytes of the read buffer to the decoder and then adds the
number of bytes processed to `read_pos`.  A command that is received on the way
may end the connection, and `reconnect` then sets `read_pos` to `read_size`: the
decoder goes on with the bytes of the connection that is gone, and `read_pos`
ends beyond the buffer.  This is what `connection.close` and `channel.close` do.

Nothing else does.  As long as no complete frame among the bytes received on a
connection is one of the two, the cursors stay within the buffers, and what the
decoder is given was read from the connection there is.

## Main definitions

* `IsClose`, `CloseFree` — the frames in question.
* `AmqpClient.Buffers` — the invariant.

## Main results

* `AmqpCore.receive_calm` — the other callbacks leave the buffers and the
  connection alone.
* `buffers_valid` — every state that can be reached without a close.
* `close_breaks_buffers` — a close, and bytes after it.
-/

namespace ZeroMQ

open Amqp Lib

/-- A frame with `connection.close` or `channel.close`. -/
def IsClose (frame : List UInt8) : Prop :=
  frame.headD 0 = frameMethod ∧
    ((getUint16 (frame.drop 7) = connectionId ∧
        getUint16 (frame.drop 9) = connectionCloseId) ∨
      (getUint16 (frame.drop 7) = channelId ∧
        getUint16 (frame.drop 9) = channelCloseId))
  deriving Decidable

/-- No complete frame of the stream is a close. -/
def CloseFree (stream : List UInt8) : Prop :=
  ∀ frame ∈ amqpFraming.split stream, ¬ IsClose frame
  deriving Decidable

theorem closeFree_nil : CloseFree [] := by
  intro frame hmem
  rw [Framing.split, if_neg (by decide)] at hmem
  cases hmem

namespace AmqpCore

variable {μ : Type} {c c' c'' : AmqpCore μ} {channel : UInt16}
  {calls : List DecoderCall}

/-! ## Callbacks that leave the buffers alone -/

/-- The handshake goes on: state, channel and encoder may have changed, and the
poller may have been called. -/
def Calm (c c' : AmqpCore μ) : Prop :=
  ∃ state channel encoder calls,
    c' = { c with
      state := state, channel := channel, encoder := encoder
      log := c.log ++ calls } ∧
    (c'.unconnected = true → c.unconnected = true) ∧
    ∀ call ∈ calls, ∀ bytes source before after,
      call ≠ .decode bytes source before after

theorem Calm.refl (c : AmqpCore μ) : Calm c c :=
  ⟨c.state, c.channel, c.encoder, [], by rw [List.append_nil], id, by simp⟩

theorem Calm.trans (h : Calm c c') (h' : Calm c' c'') : Calm c c'' := by
  obtain ⟨_, _, _, polls, rfl, hstate, hpolls⟩ := h
  obtain ⟨state, channel, encoder, polls', rfl, hstate', hpolls'⟩ := h'
  refine ⟨state, channel, encoder, polls ++ polls', ?_, ?_, ?_⟩
  · rw [← List.append_assoc]
  · exact fun hun => hstate (hstate' hun)
  · intro call hmem
    rcases List.mem_append.mp hmem with hmem | hmem
    · exact hpolls call hmem
    · exact hpolls' call hmem

theorem Calm.log (h : Calm c c') : c.log <+: c'.log := by
  obtain ⟨_, _, _, polls, rfl, _, _⟩ := h
  exact List.prefix_append _ _

theorem Calm.store (channel : UInt16) (encoder : AmqpEncoder μ) :
    Calm c { c with channel := channel, encoder := encoder } :=
  ⟨c.state, channel, encoder, [], by rw [List.append_nil], id, by simp⟩

theorem send_calm {name : AmqpMethod} {values : List FieldValue}
    (h : c.send name channel values = some c') :
    Calm c c' := by
  simp only [send, Option.bind_eq_bind, Option.bind_eq_some_iff,
    Option.pure_def, Option.some.injEq] at h
  obtain ⟨_, _, cmd, _, rfl⟩ := h
  exact Calm.store c.channel (c.encoder.push cmd)

theorem enter_calm {state : AmqpState}
    (h : state ≠ .connecting ∧ state ≠ .waitingForReconnect) :
    Calm c (enter state c) := by
  refine ⟨state, c.channel, c.encoder, [_], rfl, ?_, ?_⟩
  · simp [enter, pollerOp, io, unconnected, h]
  · intro call hmem
    rw [List.mem_singleton.mp hmem]
    simp

theorem Sends.calm (h : Sends c c') : Calm c c' := by
  induction h with
  | refl => exact Calm.refl c
  | channel channel _ ih => exact ih.trans (Calm.store channel _)
  | send _ _ hsend ih => exact ih.trans (send_calm hsend)

/-- Every callback but the two for a close. -/
theorem receive_calm {call : MethodCall AmqpMethod}
    (h : c.receive call = some (c', calls))
    (hopen : call.method ≠ .connectionClose ∧ call.method ≠ .channelClose) :
    Calm c c' := by
  have hlogged : Calm c (c.io (.received c.connection call.method)) :=
    ⟨c.state, c.channel, c.encoder, [_], rfl, id, by simp⟩
  refine hlogged.trans ?_
  cases Handled.of_receive h with
  | shake _ _ hsends hto =>
      exact hsends.calm.trans (enter_calm ⟨hto.1, hto.2.1⟩)
  | consumeOk => exact (Calm.store _ _).trans (enter_calm (by decide))
  | close hmethod => exact (not_or.mpr hopen hmethod).elim

/-- The callback for a command that is not a close, or for no method at all. -/
theorem write_calm {cmd : AmqpCommand}
    (h : AmqpUnmarshaller.write c cmd = some (c', calls)) {frame : List UInt8}
    (hframe : Carries frame cmd) (hopen : ¬ IsClose frame) : Calm c c' := by
  obtain ⟨htype, hclass, hmethod⟩ := hframe
  obtain ⟨call, hcall, h⟩ := Option.bind_eq_some_iff.mp h
  cases call with
  | none =>
      cases h
      exact Calm.refl c
  | some call =>
      apply receive_calm h
      unfold unmarshal at hcall
      split at hcall
      · cases hcall
      · next m hcase =>
          obtain ⟨values, _, heq⟩ := Option.map_eq_some_iff.mp hcall
          cases heq
          rw [← not_or]
          intro hclose
          apply hopen
          rw [IsClose, hclass, hmethod]
          exact ⟨htype, caseOf_close hcase hclose⟩

/-! ## A new connection -/

/-- `reconnect` has been called: the buffers are empty, and a new socket is
connecting, or there is none. -/
structure Restarted (c c' : AmqpCore μ) : Prop where
  writebufSize : c'.writebufSize = c.writebufSize
  writebuf : c'.writebuf = c.writebuf
  writePos : c'.writePos = c.writePos ∨ c'.writePos = c.writebuf.length
  readbufSize : c'.readbufSize = c.readbufSize
  readbuf : c'.readbuf = c.readbuf
  readSize : c'.readSize = c.readSize
  readPos : c'.readPos = c'.readSize
  received : c'.received = []
  polled : c'.polled = c.polled
  state : c'.state = .connecting ∧ c'.fd ≠ none ∨
    c'.state = .waitingForReconnect ∧ c'.fd = none
  log : ∃ polls, c'.log = c.log ++ polls ∧
    ∀ call ∈ polls, ∃ op handle registered,
      call = .poller op handle registered

/-- `reopen`, when the buffers are empty. -/
theorem reopen_restarted (h : c.reopen = some c')
    (hpos : c.readPos = c.readSize) (hreceived : c.received = []) :
    Restarted c c' := by
  rw [reopen, Option.ite_none_right_eq_some] at h
  obtain ⟨hfd, h⟩ := h
  split at h
  · cases h
    exact
      { writebufSize := rfl, writebuf := rfl, writePos := .inl rfl,
        readbufSize := rfl, readbuf := rfl, readSize := rfl, readPos := hpos,
        received := hreceived, polled := rfl, state := .inr ⟨rfl, hfd⟩,
        log := ⟨[], (List.append_nil _).symm, by simp⟩ }
  · next fd handle _ =>
      cases h
      exact
        { writebufSize := rfl, writebuf := rfl, writePos := .inl rfl,
          readbufSize := rfl, readbuf := rfl, readSize := rfl, readPos := hpos,
          received := hreceived, polled := rfl,
          state := .inl ⟨rfl, Option.some_ne_none fd⟩,
          log := ⟨_, rfl, fun call hmem =>
            ⟨_, _, _, List.mem_singleton.mp hmem⟩⟩ }

/-- `reconnect`; the buffers are empty already when there is no socket. -/
theorem reconnect_restarted (h : c.reconnect = some c')
    (hwait : c.state = .waitingForReconnect →
      c.readPos = c.readSize ∧ c.received = []) : Restarted c c' := by
  rw [reconnect] at h
  split at h
  · next hstate =>
      exact reopen_restarted h (hwait hstate).1 (hwait hstate).2
  · obtain ⟨c₁, hdrop, h⟩ := Option.bind_eq_some_iff.mp h
    rw [dropSocket_eq_some hdrop] at h
    split at h
    · cases h
      exact
        { writebufSize := rfl, writebuf := rfl, writePos := .inr rfl,
          readbufSize := rfl, readbuf := rfl, readSize := rfl, readPos := rfl,
          received := rfl, polled := rfl, state := .inr ⟨rfl, rfl⟩,
          log := ⟨_, rfl, fun call hmem =>
            ⟨_, _, _, List.mem_singleton.mp hmem⟩⟩ }
    · have hre := reopen_restarted h rfl rfl
      obtain ⟨polls, hlog, hpolls⟩ := hre.log
      exact
        { writebufSize := hre.writebufSize, writebuf := hre.writebuf,
          writePos := .inr (hre.writePos.elim id id),
          readbufSize := hre.readbufSize, readbuf := hre.readbuf,
          readSize := hre.readSize, readPos := hre.readPos,
          received := hre.received, polled := hre.polled, state := hre.state,
          log := ⟨_ :: polls, by rw [hlog]; exact List.append_assoc .., by
            intro call hmem
            rcases List.mem_cons.mp hmem with rfl | hmem
            · exact ⟨_, _, _, rfl⟩
            · exact hpolls call hmem⟩ }

theorem error_restarted (h : c.error = some (c', calls))
    (hwait : c.state = .waitingForReconnect →
      c.readPos = c.readSize ∧ c.received = []) :
    Restarted c c' ∧
      (calls = [.gap, .reset] ∨ calls = [] ∧ c.unconnected = true) := by
  obtain ⟨env, ⟨hun, rfl, hre⟩ | ⟨_, rfl, hre⟩⟩ := error_cases h
  · exact ⟨{ reconnect_restarted hre hwait with }, .inr ⟨rfl, hun⟩⟩
  · exact ⟨{ reconnect_restarted hre hwait with }, .inl rfl⟩

end AmqpCore

namespace AmqpCore

variable {μ : Type}

/-- The bytes of the read buffer that have not been processed. -/
def unread (c : AmqpCore μ) : List UInt8 :=
  if c.readPos < c.readSize then c.readbuf.drop c.readPos.toNat else []

/-- The bytes given to the decoder came from the connection there was, and the
connection is still the same when the decoder returns. -/
def Faithful (c : AmqpCore μ) : Prop :=
  ∀ bytes source before after,
    AmqpIo.decode bytes source before after ∈ c.log →
      source = before ∧ after = before

theorem Faithful.of_polls {c : AmqpCore μ} (h : c.Faithful)
    {c' : AmqpCore μ} {polls : List AmqpIo} (hlog : c'.log = c.log ++ polls)
    (hpolls : ∀ call ∈ polls, ∀ bytes source before after,
      call ≠ .decode bytes source before after) : c'.Faithful := by
  intro bytes source before after hmem
  rw [hlog] at hmem
  rcases List.mem_append.mp hmem with hmem | hmem
  · exact h bytes source before after hmem
  · exact (hpolls _ hmem bytes source before after rfl).elim

theorem Faithful.of_call {c : AmqpCore μ} (h : c.Faithful)
    {c' : AmqpCore μ} {call : AmqpIo} (hlog : c'.log = c.log ++ [call])
    (hcall : ∀ bytes source before after,
      call ≠ .decode bytes source before after) : c'.Faithful := by
  apply h.of_polls hlog
  intro call' hmem
  rw [List.mem_singleton.mp hmem]
  exact hcall

/-- The cursors are within the buffers. -/
structure CursorsValid (c : AmqpCore μ) : Prop where
  write : c.writePos ≤ c.writebuf.length ∧ c.writebuf.length ≤ c.writebufSize
  read : c.readSize = -1 ∨
    0 ≤ c.readPos ∧ c.readPos ≤ c.readSize ∧ c.readSize ≤ c.readbufSize

end AmqpCore

namespace AmqpClient

variable {δ μ : Type} {c : AmqpClient δ μ}

/-- The invariant.  The last four say when there is a socket, and that the
poller has been given the client before it raises events. -/
structure Buffers (c : AmqpClient δ μ) : Prop where
  write : c.core.writePos ≤ c.core.writebuf.length ∧
    c.core.writebuf.length ≤ c.core.writebufSize
  size : c.core.readSize = -1 ∨
    c.core.readSize = c.core.readbuf.length ∧
      c.core.readbuf.length ≤ c.core.readbufSize
  read : c.core.readPos = c.core.readSize ∨
    0 ≤ c.core.readPos ∧ c.core.readPos < c.core.readSize
  idle : c.core.unconnected = true → c.core.received = []
  fresh : c.core.received = [] → c.core.readPos = c.core.readSize
  aligned : ∃ consumed, c.core.received.flatten = consumed ++ c.core.unread ∧
    AmqpDecoder.Aligned c consumed
  closeFree : CloseFree c.core.received.flatten
  source : c.core.readPos < c.core.readSize →
    c.core.source = c.core.connection
  faithful : c.core.Faithful
  opened : c.core.polled = true → c.core.state ≠ .waitingForReconnect →
    c.core.fd ≠ none
  closed : c.core.state = .waitingForReconnect → c.core.fd = none
  early : c.core.polled = false → c.core.state = .connecting
  watched : c.core.registered ≠ none → c.core.polled = true

theorem Buffers.valid (h : Buffers c) : c.core.CursorsValid where
  write := h.write
  read := by
    have hread := h.read
    have hsize := h.size
    omega

/-- What a handler leaves behind, unless an assertion has failed. -/
def Keeps (c : AmqpClient δ μ) : Prop := c.aborted = true ∨ Buffers c

theorem Keeps.abort (c : AmqpClient δ μ) : Keeps c.abort := .inl rfl

/-! ## `error` -/

/-- A new connection begins with an empty decoder. -/
theorem Buffers.restart {core : AmqpCore μ}
    (hwrite : core.writePos ≤ core.writebuf.length ∧
      core.writebuf.length ≤ core.writebufSize)
    (hsize : core.readSize = -1 ∨
      core.readSize = core.readbuf.length ∧
        core.readbuf.length ≤ core.readbufSize) (hfaithful : core.Faithful)
    (hpolled : core.polled = true) (hcore : core.Restarted c.core)
    (haligned : AmqpDecoder.Aligned c []) :
    Buffers c where
  write := by
    rw [hcore.writebuf, hcore.writebufSize]
    rcases hcore.writePos with hpos | hpos
    · rw [hpos]
      exact hwrite
    · rw [hpos]
      exact ⟨Nat.le_refl _, hwrite.2⟩
  size := by
    rw [hcore.readSize, hcore.readbuf, hcore.readbufSize]
    exact hsize
  read := .inl hcore.readPos
  idle := fun _ => hcore.received
  fresh := fun _ => hcore.readPos
  aligned := by
    refine ⟨[], ?_, haligned⟩
    rw [hcore.received, AmqpCore.unread, if_neg]
    · rfl
    · rw [hcore.readPos]
      exact Int.lt_irrefl _
  closeFree := by
    rw [hcore.received]
    exact closeFree_nil
  source := fun hlt => by
    rw [hcore.readPos] at hlt
    exact (Int.lt_irrefl _ hlt).elim
  faithful := by
    obtain ⟨polls, hlog, hpolls⟩ := hcore.log
    refine hfaithful.of_polls hlog ?_
    intro call hmem bytes source before after
    obtain ⟨op, handle, registered, rfl⟩ := hpolls call hmem
    exact fun h => AmqpIo.noConfusion h
  opened := fun _ hne => by
    rcases hcore.state with ⟨_, hfd⟩ | ⟨hwait, _⟩
    · exact hfd
    · exact (hne hwait).elim
  closed := fun hwait => by
    rcases hcore.state with ⟨hstate, _⟩ | ⟨_, hfd⟩
    · rw [hstate] at hwait
      cases hwait
    · exact hfd
  early := fun hnot => by
    rw [hcore.polled, hpolled] at hnot
    cases hnot
  watched := fun _ => hcore.polled.trans hpolled

/-- The decoder has consumed nothing of a connection that is not there. -/
theorem Buffers.aligned_nil (h : Buffers c) (hun : c.core.unconnected = true) :
    AmqpDecoder.Aligned c [] := by
  obtain ⟨consumed, hconsumed, haligned⟩ := h.aligned
  rw [h.idle hun] at hconsumed
  have hnil : consumed = [] := (List.append_eq_nil_iff.mp hconsumed.symm).1
  rw [hnil] at haligned
  exact haligned

@[simp] theorem core_mapDemux (c : AmqpClient δ μ) (f : δ → δ) :
    (c.mapDemux f).core = c.core := rfl

theorem Buffers.mapDemux (h : Buffers c) (f : δ → δ) :
    Buffers (c.mapDemux f) := { h with }

theorem Buffers.setMux (h : Buffers c) (mux : μ) :
    Buffers (c.setMux mux) := { h with }

theorem Buffers.answer (h : Buffers c) (env : AmqpEnv) :
    Buffers (c.answer env) := { h with }

theorem Buffers.timer (h : Buffers c) :
    Buffers (c.mapCore fun core => { core with timers := core.timers - 1 }) :=
  { h with }

theorem Buffers.pollerOp (h : Buffers c) (op : PollerOp) :
    Buffers (c.mapCore fun core => core.pollerOp op) :=
  { h with faithful := h.faithful.of_call rfl (by simp) }

theorem Buffers.sendTo (h : Buffers c) (noPipes : Bool) (demux : δ) :
    Buffers (c.sendTo noPipes demux) := by
  unfold AmqpClient.sendTo
  dsimp only
  split
  · exact (h.pollerOp .setPollin).mapDemux fun _ => demux
  · exact h.mapDemux fun _ => demux

theorem Buffers.receiveFrom (h : Buffers c) (mux : μ) :
    Buffers (c.receiveFrom mux) := by
  unfold AmqpClient.receiveFrom
  dsimp only
  split
  · exact (h.setMux mux).pollerOp .setPollout
  · exact h.setMux mux

theorem Buffers.registerEvent (h : Buffers c) (handle : Nat) :
    Keeps (c.registerEvent handle) := by
  unfold AmqpClient.registerEvent
  split
  · next hfd =>
      right
      exact
        { h with
          faithful := h.faithful.of_call rfl (by simp)
          opened := fun _ _ => hfd.2
          early := nofun
          watched := fun _ => rfl }
  · exact Keeps.abort c

theorem Buffers.create (writebufSize readbufSize : Nat) (mux : μ) (demux : δ)
    (arguments : List UInt8) (fd : Option Nat) (channel : UInt16)
    (handle : Nat) :
    Buffers (create writebufSize readbufSize mux demux arguments fd channel
      handle) where
  write := ⟨Nat.le_refl _, Nat.zero_le _⟩
  size := .inr ⟨rfl, Nat.zero_le _⟩
  read := .inl rfl
  idle := fun _ => rfl
  fresh := fun _ => rfl
  aligned := ⟨[], rfl, AmqpDecoder.Aligned.nil rfl rfl rfl⟩
  closeFree := closeFree_nil
  source := fun hlt => (Int.lt_irrefl 0 hlt).elim
  faithful := fun _ _ _ _ hmem => by cases hmem
  opened := nofun
  closed := nofun
  early := fun _ => rfl
  watched := fun hreg => (hreg rfl).elim

theorem unread_repoll (stuck : Bool) (core : AmqpCore μ) :
    ∃ polls, repoll stuck core = { core with log := core.log ++ polls } ∧
      ∀ call ∈ polls, ∀ bytes source before after,
        call ≠ .decode bytes source before after := by
  have hnone : core = { core with log := core.log ++ [] } := by
    rw [List.append_nil]
  unfold repoll
  split
  · split
    · exact ⟨_, rfl, by simp⟩
    · exact ⟨[], hnone, by simp⟩
  · split
    · exact ⟨_, rfl, by simp⟩
    · exact ⟨[], hnone, by simp⟩

/-- What `write` and `in_event` after it have made of the members. -/
theorem core_processed {c d : AmqpClient δ μ}
    (hcalm : AmqpCore.Calm c.core d.core) (stuck : Bool) (data : List UInt8)
    (nbytes : Nat) :
    ∃ state channel encoder calls,
      (d.mapCore (processed stuck data c.core.connection nbytes)).core =
        { c.core with
          state := state, channel := channel, encoder := encoder
          readPos := c.core.readPos + nbytes
          log := c.core.log ++ calls } ∧
      (state = .connecting ∨ state = .waitingForReconnect →
        c.core.unconnected = true) ∧
      ∀ bytes source before after, .decode bytes source before after ∈ calls →
        source = c.core.source ∧ before = c.core.connection ∧
          after = c.core.connection := by
  obtain ⟨state, channel, encoder, polls, hcore, hstate, hpolls⟩ := hcalm
  obtain ⟨polls', hrepoll, hpolls'⟩ := unread_repoll stuck
    { d.core.io (.decode data d.core.source c.core.connection
        d.core.connection) with
      readPos := d.core.readPos + nbytes }
  refine ⟨state, channel, encoder, polls ++ [.decode data c.core.source
    c.core.connection c.core.connection] ++ polls', ?_, ?_, ?_⟩
  · show processed stuck data c.core.connection nbytes d.core = _
    rw [processed, hrepoll, hcore]
    simp only [AmqpCore.io, List.append_assoc]
  · intro hun
    apply hstate
    rw [hcore]
    simpa [AmqpCore.unconnected] using hun
  · intro bytes source before after hmem
    rw [List.mem_append, List.mem_append, List.mem_singleton] at hmem
    rcases hmem with (hmem | heq) | hmem
    · exact (hpolls _ hmem bytes source before after rfl).elim
    · cases heq
      exact ⟨rfl, rfl, rfl⟩
    · exact (hpolls' _ hmem bytes source before after rfl).elim

/-- The decoder has processed some of the bytes it was given. -/
theorem Buffers.processed {c d : AmqpClient δ μ} (h : Buffers c)
    (hlt : c.core.readPos < c.core.readSize)
    (hcalm : AmqpCore.Calm c.core d.core) {consumed : List UInt8} {nbytes : Nat}
    (hconsumed : c.core.received.flatten =
      consumed ++ c.core.readbuf.drop c.core.readPos.toNat)
    (hle : nbytes ≤ (c.core.readbuf.drop c.core.readPos.toNat).length)
    (hal : AmqpDecoder.Aligned d (consumed ++
      (c.core.readbuf.drop c.core.readPos.toNat).take nbytes))
    (stuck : Bool) (data : List UInt8) :
    Buffers (d.mapCore
      (AmqpClient.processed stuck data c.core.connection nbytes)) := by
  obtain ⟨state, channel, encoder, calls, hcore, hstate, hcalls⟩ :=
    core_processed hcalm stuck data nbytes
  have hread := h.read
  have hsize := h.size
  rw [List.length_drop] at hle
  have hdrop : (c.core.readPos + nbytes).toNat =
      c.core.readPos.toNat + nbytes := by omega
  have hne : c.core.received ≠ [] := fun hnil => by
    have := h.fresh hnil
    omega
  exact
    { write := by
        rw [hcore]
        exact h.write
      size := by
        rw [hcore]
        exact hsize
      read := by
        rw [hcore]
        dsimp only
        omega
      idle := by
        rw [hcore]
        intro hun
        apply h.idle
        apply hstate
        simpa [AmqpCore.unconnected] using hun
      fresh := by
        rw [hcore]
        exact fun hnil => (hne hnil).elim
      aligned := by
        refine ⟨_, ?_, hal⟩
        rw [hcore, AmqpCore.unread]
        dsimp only
        rw [hconsumed, List.append_assoc, hdrop]
        split
        · rw [← List.drop_drop, List.take_append_drop]
        · rw [List.append_nil, List.take_of_length_le
            (by rw [List.length_drop]; omega)]
      closeFree := by
        rw [hcore]
        exact h.closeFree
      source := by
        rw [hcore]
        exact fun _ => h.source hlt
      faithful := by
        rw [hcore]
        intro bytes source before after hmem
        rcases List.mem_append.mp hmem with hmem | hmem
        · exact h.faithful bytes source before after hmem
        · obtain ⟨rfl, rfl, rfl⟩ := hcalls bytes source before after hmem
          exact ⟨h.source hlt, rfl⟩
      opened := by
        rw [hcore]
        intro hpolled hwait
        apply h.opened hpolled
        intro hwait'
        exact hne (h.idle (by rw [AmqpCore.unconnected, hwait']; rfl))
      closed := by
        rw [hcore]
        exact fun hwait => (hne (h.idle (hstate (.inr hwait)))).elim
      early := by
        rw [hcore]
        intro hpolled
        exact (hne (h.idle (by
          rw [AmqpCore.unconnected, h.early hpolled]
          rfl))).elim
      watched := by
        rw [hcore]
        exact h.watched }

/-- A handler reads from the socket. -/
def Reads (c : AmqpClient δ μ) : Prop :=
  c.core.state ≠ .connecting ∧ c.core.readPos = c.core.readSize
  deriving Decidable

/-- The bytes of the connection, with those that are to be read. -/
def incoming (env : AmqpEnv) (c : AmqpClient δ μ) : List UInt8 :=
  c.core.received.flatten ++ (env.read.getD []).take c.core.readbufSize

theorem Buffers.refill (h : Buffers c) (hopen : c.core.unconnected = false)
    (hreads : c.Reads) {bytes : List UInt8}
    (hlen : bytes.length ≤ c.core.readbufSize)
    (hfree : CloseFree (c.core.received.flatten ++ bytes)) :
    Buffers (c.mapCore fun core =>
      { core.io (.read core.connection (some bytes)) with
        readbuf := bytes
        readSize := bytes.length
        readPos := 0
        source := core.connection
        received := core.received ++ [bytes] }) where
  write := h.write
  size := .inr ⟨rfl, hlen⟩
  read := by
    show (0 : Int) = bytes.length ∨ (0 : Int) ≤ 0 ∧ (0 : Int) < bytes.length
    omega
  idle := fun hun => (Bool.false_ne_true (hopen.symm.trans hun)).elim
  fresh := fun hnil => (List.append_ne_nil_of_right_ne_nil _ (by simp) hnil).elim
  aligned := by
    obtain ⟨consumed, hconsumed, haligned⟩ := h.aligned
    rw [AmqpCore.unread, if_neg (by rw [hreads.2]; exact Int.lt_irrefl _),
      List.append_nil] at hconsumed
    refine ⟨consumed, ?_, haligned⟩
    show (c.core.received ++ [bytes]).flatten = consumed ++
      if (0 : Int) < bytes.length then bytes.drop 0 else []
    rw [List.flatten_append, hconsumed, List.flatten_singleton]
    split
    · rfl
    · next hnot =>
        have hnil : bytes = [] := List.length_eq_zero_iff.mp (by omega)
        rw [hnil]
  closeFree := by
    show CloseFree (c.core.received ++ [bytes]).flatten
    rw [List.flatten_append, List.flatten_singleton]
    exact hfree
  source := fun _ => rfl
  faithful := h.faithful.of_call rfl (by simp)
  opened := h.opened
  closed := h.closed
  early := h.early
  watched := h.watched

theorem Buffers.fill [Mux μ] (h : Buffers c) : Buffers c.fill := by
  unfold AmqpClient.fill
  split
  · have hlen := @Encoder.readLoop_length_le _ _ AmqpEncoder.fsm
      c.core.writebufSize c.core.encoder [] none (Nat.zero_le _)
    have hwrite : Buffers (c.mapCore fun core =>
        { core with
          encoder := (core.encoder.read core.writebufSize).1
          writebuf := (core.encoder.read core.writebufSize).2.1
          writePos := 0 }) :=
      { h with write := ⟨Nat.zero_le _, hlen⟩ }
    simp only [mapCore]
    split
    · exact hwrite.pollerOp .resetPollout
    · exact hwrite
  · exact h

theorem polled_fill [Mux μ] (c : AmqpClient δ μ) :
    c.fill.core.polled = c.core.polled := by
  unfold AmqpClient.fill
  split
  · simp only [mapCore]
    split <;> rfl
  · rfl

variable [IDemux δ]

/-- `error`, in a client whose read cursor may be anywhere unless it waits for
a reconnection. -/
theorem keeps_error
    (hwrite : c.core.writePos ≤ c.core.writebuf.length ∧
      c.core.writebuf.length ≤ c.core.writebufSize)
    (hsize : c.core.readSize = -1 ∨
      c.core.readSize = c.core.readbuf.length ∧
        c.core.readbuf.length ≤ c.core.readbufSize)
    (hfaithful : c.core.Faithful) (hpolled : c.core.polled = true)
    (hwait : c.core.state = .waitingForReconnect →
      c.core.readPos = c.core.readSize ∧ c.core.received = [])
    (haligned : c.core.unconnected = true → AmqpDecoder.Aligned c []) :
    Keeps c.error := by
  cases herror : c.core.error with
  | none =>
      rw [AmqpClient.error, herror]
      exact Keeps.abort c
  | some r =>
      obtain ⟨core, calls⟩ := r
      rw [AmqpClient.error, herror]
      right
      obtain ⟨hcore, rfl | ⟨rfl, hun⟩⟩ := AmqpCore.error_restarted herror hwait
      · refine Buffers.restart hwrite hsize hfaithful hpolled ?_
          (AmqpDecoder.Aligned.nil rfl rfl rfl)
        simp only [apply, List.foldl_cons, List.foldl_nil, core_decoderCall]
        exact hcore
      · exact Buffers.restart hwrite hsize hfaithful hpolled hcore
          (haligned hun)

theorem Buffers.error (h : Buffers c) (hpolled : c.core.polled = true) :
    Keeps c.error := by
  refine keeps_error h.write h.size h.faithful hpolled ?_ h.aligned_nil
  intro hwait
  have hreceived : c.core.received = [] := by
    apply h.idle
    rw [AmqpCore.unconnected, hwait]
    rfl
  exact ⟨h.fresh hreceived, hreceived⟩

/-! ## `in_event` -/

/-- The decoder goes on with a stream without a close. -/
theorem write_calm {consumed data : List UInt8}
    (haligned : AmqpDecoder.Aligned c consumed)
    (hfree : CloseFree (consumed ++ data)) :
    AmqpCore.Calm c.core (core (AmqpDecoder.write c data).1) ∧
      ((AmqpDecoder.write c data).1.derived.failed = true ∨
        AmqpDecoder.Aligned (AmqpDecoder.write c data).1
          (consumed ++ data.take (AmqpDecoder.write c data).2)) := by
  -- The invariant is about the bytes that are really there.
  let I : AmqpClient δ μ → List UInt8 → Prop := fun d seen =>
    consumed ++ seen <+: consumed ++ data →
      AmqpCore.Calm c.core d.core ∧ AmqpDecoder.Aligned d (consumed ++ seen)
  let J : AmqpClient δ μ → List UInt8 → Prop := fun d seen =>
    consumed ++ seen <+: consumed ++ data →
      AmqpCore.Calm c.core d.core ∧
        (d.derived.failed = true ∨ AmqpDecoder.Aligned d (consumed ++ seen))
  have hrule := @Decoder.write_rule _ _ AmqpDecoder.fsm I J ?_ ?_ ?_ c data []
    ?_
  · have hpre : consumed ++ ([] ++ data.take (AmqpDecoder.write c data).2) <+:
        consumed ++ data := by
      rw [List.nil_append, List.prefix_append_right_inj]
      exact List.take_prefix _ _
    rcases hrule with ⟨hI, _⟩ | hJ
    · exact ⟨(hI hpre).1, .inr (hI hpre).2⟩
    · exact hJ hpre
  · intro d seen bytes hI hle hpre
    rw [← List.append_assoc] at hpre ⊢
    obtain ⟨hcalm, hal⟩ := hI ((List.prefix_append _ _).trans hpre)
    exact ⟨hcalm, hal.copy hle⟩
  · intro d seen toRead next derived hI hzero hact hpre
    obtain ⟨hcalm, hal⟩ := hI hpre
    obtain ⟨hal', hcall⟩ := hal.step hzero hact
    refine ⟨?_, hal'⟩
    rcases hcall with hsame | ⟨frame, cmd, calls, hcarries, hmem, hwrite⟩
    · show AmqpCore.Calm c.core derived.callback
      rw [hsame]
      exact hcalm
    · exact hcalm.trans (AmqpCore.write_calm hwrite hcarries
        (hfree frame (hmem _ hpre)))
  · intro d seen derived hI hzero hact hpre
    obtain ⟨hcalm, hal⟩ := hI hpre
    obtain ⟨hsame, hal'⟩ := hal.stop hact
    refine ⟨?_, hal'⟩
    show AmqpCore.Calm c.core derived.callback
    rw [hsame]
    exact hcalm
  · intro _
    rw [List.append_nil]
    exact ⟨AmqpCore.Calm.refl _, haligned⟩

theorem Buffers.decode (h : Buffers c) (stuck : Bool) :
    Keeps (c.decode stuck) := by
  unfold AmqpClient.decode
  split
  · next hlt =>
      obtain ⟨consumed, hconsumed, haligned⟩ := h.aligned
      rw [AmqpCore.unread, if_pos hlt] at hconsumed
      have hfree := h.closeFree
      rw [hconsumed] at hfree
      obtain ⟨hcalm, hal⟩ := write_calm haligned hfree
      have hle := @Decoder.write_le _ _ AmqpDecoder.fsm c
        (c.core.readbuf.drop c.core.readPos.toNat)
      dsimp only
      split
      · next hab => exact .inl hab
      · next hab =>
          rw [aborted, Bool.or_eq_true, not_or] at hab
          have hkeep := h.processed hlt hcalm hconsumed hle
            (hal.resolve_left hab.1) stuck
            (c.core.readbuf.drop c.core.readPos.toNat)
          split
          · exact .inr (hkeep.mapDemux IDemux.flush)
          · exact .inr hkeep
  · exact .inr h

theorem Buffers.receive (h : Buffers c) (hreads : c.Reads)
    (hpolled : c.core.polled = true)
    (hfree : CloseFree (c.incoming c.core.env)) : Keeps c.receive := by
  unfold AmqpClient.receive
  split
  · exact Keeps.abort c
  · next hfd =>
      have hopen : c.core.unconnected = false := by
        have hwait : c.core.state ≠ .waitingForReconnect := fun hwait =>
          hfd (h.closed hwait)
        simp [AmqpCore.unconnected, hreads.1, hwait]
      split
      · -- the other party has closed the connection
        refine keeps_error h.write (.inl rfl) ?_ hpolled ?_ ?_
        · exact h.faithful.of_call rfl (by simp)
        · exact fun hwait => (hfd (h.closed hwait)).elim
        · exact fun hun => (Bool.false_ne_true (hopen.symm.trans hun)).elim
      · next bytes hread =>
          rw [incoming, hread, Option.getD_some] at hfree
          exact (h.refill hopen hreads (List.length_take_le ..)
            hfree).decode false

theorem Buffers.inEvent (h : Buffers c) (hpolled : c.core.polled = true)
    (hfree : c.Reads → CloseFree (c.incoming c.core.env)) :
    Keeps c.inEvent := by
  unfold AmqpClient.inEvent
  split
  · split
    · exact h.error hpolled
    · exact Keeps.abort c
  · next hstate =>
      split
      · next hpos => exact h.receive ⟨hstate, hpos⟩ hpolled (hfree ⟨hstate, hpos⟩)
      · exact h.decode _

/-! ## `out_event` -/

theorem Buffers.send (h : Buffers c) (hpolled : c.core.polled = true) :
    Keeps c.send := by
  unfold AmqpClient.send
  split
  · split
    · exact Keeps.abort c
    · dsimp only
      split
      · have hio : Buffers (c.mapCore fun core => core.io
            (.write core.connection (c.core.writebuf.drop c.core.writePos)
              none)) :=
          { h with faithful := h.faithful.of_call rfl (by simp) }
        exact hio.error hpolled
      · next n _ =>
          right
          refine { h with write := ⟨?_, h.write.2⟩, faithful := ?_ }
          · show c.core.writePos + min n
              (c.core.writebuf.drop c.core.writePos).length ≤
                c.core.writebuf.length
            rw [List.length_drop]
            omega
          · exact h.faithful.of_call rfl (by simp)
  · exact .inr h

theorem Buffers.head (h : Buffers c) (hpolled : c.core.polled = true)
    (hfree : c.Reads → CloseFree (c.incoming c.core.env)) (demux : δ) :
    Keeps (c.head demux) := by
  unfold AmqpClient.head
  split
  · exact (h.mapDemux fun _ => demux).inEvent hpolled hfree
  · exact .inr h

theorem Buffers.timerEvent (h : Buffers c) : Keeps c.timerEvent := by
  unfold AmqpClient.timerEvent
  split
  · next hstate =>
      have hun : c.core.unconnected = true := by
        rw [AmqpCore.unconnected, hstate]
        rfl
      have hpolled : c.core.polled = true := by
        cases hp : c.core.polled with
        | true => rfl
        | false =>
            have hearly := h.early hp
            rw [hstate] at hearly
            cases hearly
      cases hre : c.core.reconnect with
      | none => exact Keeps.abort c
      | some core =>
          right
          have hcore := AmqpCore.reconnect_restarted hre
            fun _ => ⟨h.fresh (h.idle hun), h.idle hun⟩
          exact Buffers.restart h.write h.size h.faithful hpolled hcore
            (h.aligned_nil hun)
  · exact Keeps.abort c

variable [Mux μ]

theorem Buffers.outEvent (h : Buffers c) (hpolled : c.core.polled = true) :
    Keeps c.outEvent := by
  unfold AmqpClient.outEvent
  split
  · next hstate =>
      split
      · exact h.error hpolled
      · -- the connection is established
        have hreceived : c.core.received = [] := by
          apply h.idle
          rw [AmqpCore.unconnected, hstate]
          rfl
        right
        exact
          { h.pollerOp .setPollin with
            idle := fun _ => hreceived
            opened := fun hp _ => h.opened hp (by rw [hstate]; simp)
            closed := nofun
            early := fun hp =>
              (Bool.false_ne_true (hp.symm.trans hpolled)).elim }
  · split
    · next hab => exact .inl hab
    · exact h.fill.send ((polled_fill c).trans hpolled)

theorem Buffers.revive (h : Buffers c) (hpolled : c.core.polled = true)
    (mux : μ) : Keeps (c.revive mux) := by
  unfold AmqpClient.revive
  split
  · dsimp only
    split
    · exact ((h.setMux mux).pollerOp .setPollout).outEvent hpolled
    · exact .inr (h.setMux mux)
  · exact .inr h

/-! ## Runs -/

/-- What is read does not complete a close. -/
def CloseFreeAct (c : AmqpClient δ μ) : AmqpAct δ μ → Prop
  | .inEvent env => c.Reads → CloseFree (c.incoming env)
  | .head _ env => c.Reads → CloseFree (c.incoming env)
  | _ => True

instance (c : AmqpClient δ μ) (act : AmqpAct δ μ) :
    Decidable (c.CloseFreeAct act) :=
  match act with
  | .inEvent _ => inferInstanceAs (Decidable (_ → _))
  | .head _ _ => inferInstanceAs (Decidable (_ → _))
  | .register _ => .isTrue trivial
  | .outEvent _ => .isTrue trivial
  | .timer _ => .isTrue trivial
  | .revive _ _ => .isTrue trivial
  | .sendTo _ _ => .isTrue trivial
  | .receiveFrom _ => .isTrue trivial
  | .pipes _ _ => .isTrue trivial

theorem Buffers.step {c c' : AmqpClient δ μ} {act : AmqpAct δ μ}
    (h : Buffers c) (hfree : c.CloseFreeAct act) (hstep : Step c act c') :
    Keeps c' := by
  cases hstep with
  | register hp => exact h.registerEvent _
  | @inEvent env hreg =>
      exact (h.answer env).inEvent (h.watched hreg) hfree
  | @outEvent env hreg => exact (h.answer env).outEvent (h.watched hreg)
  | @timer env ht => exact (h.answer env).timer.timerEvent
  | @head demux env hp => exact (h.answer env).head hp hfree demux
  | @revive mux env hp => exact (h.answer env).revive hp mux
  | sendTo hp => exact .inr (h.sendTo _ _)
  | receiveFrom hp => exact .inr (h.receiveFrom _)
  | pipes => exact .inr ((h.setMux _).mapDemux _)

theorem Buffers.run {writebufSize readbufSize : Nat} {mux : μ} {demux : δ}
    {arguments : List UInt8} {fd : Option Nat} {channel : UInt16} {handle : Nat}
    {acts : List (AmqpAct δ μ)}
    (h : Run AmqpClient.step CloseFreeAct
      (AmqpClient.create writebufSize readbufSize mux demux arguments fd channel
        handle) acts c) : Keeps c := by
  refine h.invariant (I := Keeps) ?_ (.inr (Buffers.create ..))
  intro c act c' hkeeps hfree hstep
  obtain ⟨hok, hstep⟩ := Step.of_step hstep
  rcases hkeeps with hab | hbuf
  · rw [hok] at hab
    cases hab
  · exact hbuf.step hfree hstep

/-! ## The first read of a connection -/

omit [Mux μ] in
theorem Buffers.log_decode (h : Buffers c) (stuck : Bool) :
    c.core.log <+: (c.decode stuck).core.log := by
  unfold AmqpClient.decode
  split
  · next hlt =>
      obtain ⟨consumed, hconsumed, haligned⟩ := h.aligned
      rw [AmqpCore.unread, if_pos hlt] at hconsumed
      have hfree := h.closeFree
      rw [hconsumed] at hfree
      obtain ⟨hcalm, _⟩ := write_calm haligned hfree
      dsimp only
      split
      · exact hcalm.log
      · obtain ⟨_, _, _, calls, hcore, _, _⟩ := core_processed hcalm stuck
          (c.core.readbuf.drop c.core.readPos.toNat)
          (AmqpDecoder.write c (c.core.readbuf.drop c.core.readPos.toNat)).2
        have hlog := List.prefix_append c.core.log calls
        split
        · rw [core_mapDemux, hcore]
          exact hlog
        · rw [hcore]
          exact hlog
  · exact List.prefix_rfl

omit [Mux μ] in
theorem log_error {log : List AmqpIo} (hlog : c.core.log = log)
    (hwait : c.core.state = .waitingForReconnect →
      c.core.readPos = c.core.readSize ∧ c.core.received = []) :
    log <+: c.error.core.log := by
  subst hlog
  unfold AmqpClient.error
  cases herror : c.core.error with
  | none => exact List.prefix_rfl
  | some r =>
      obtain ⟨core', calls⟩ := r
      obtain ⟨hcore, hcalls⟩ := AmqpCore.error_restarted herror hwait
      have hsame : (c.apply (some (core', calls))).core = core' := by
        rcases hcalls with rfl | ⟨rfl, _⟩
        · simp only [apply, List.foldl_cons, List.foldl_nil, core_decoderCall]
          rfl
        · rfl
      obtain ⟨polls, hlog, _⟩ := hcore.log
      rw [hsame, hlog]
      exact List.prefix_append _ _

omit [Mux μ] in
/-- `in_event` of a connection from which nothing has been read. -/
theorem Buffers.first_read (h : Buffers c) (hpolled : c.core.polled = true)
    (hopen : c.core.unconnected = false) (hfresh : c.core.received = [])
    (hfree : CloseFree (c.incoming c.core.env)) :
    ∃ result, c.core.log ++ [.read c.core.connection result] <+:
      c.inEvent.core.log := by
  have hstates : c.core.state ≠ .connecting ∧
      c.core.state ≠ .waitingForReconnect := by
    simpa [AmqpCore.unconnected] using hopen
  have hpos := h.fresh hfresh
  rw [AmqpClient.inEvent, if_neg hstates.1, if_pos hpos, AmqpClient.receive,
    if_neg (h.opened hpolled hstates.2)]
  split
  · exact ⟨none, log_error rfl fun hwait => (hstates.2 hwait).elim⟩
  · next bytes hread =>
      rw [incoming, hread, Option.getD_some] at hfree
      exact ⟨some _, (h.refill hopen ⟨hstates.1, hpos⟩
        (List.length_take_le ..) hfree).log_decode false⟩

end AmqpClient

open AmqpClient

/-- The buffers of the client, in every run whose reads do not complete a
`connection.close` or a `channel.close`: between two handlers the cursors are
within the buffers; every byte ever given to the decoder was read from the
connection there was then; and the first `in_event` of an established connection
reads from the socket before anything else. -/
theorem buffers_valid {δ μ : Type} [IDemux δ] [Mux μ]
    {writebufSize readbufSize : Nat} {mux : μ} {demux : δ}
    {arguments : List UInt8} {fd : Option Nat} {channel : UInt16}
    {handle : Nat} {acts : List (AmqpAct δ μ)} {c : AmqpClient δ μ}
    (h : Run step CloseFreeAct
      (create writebufSize readbufSize mux demux arguments fd channel handle)
      acts c) (hok : c.aborted = false) :
    c.core.CursorsValid ∧ c.core.Faithful ∧
      (c.core.received = [] → c.core.unconnected = false → ∀ env,
        c.CloseFreeAct (.inEvent env) →
        ∃ result, c.core.log ++ [.read c.core.connection result] <+:
          (c.answer env).inEvent.core.log) := by
  have hbuf : Buffers c := by
    rcases Buffers.run h with hab | hbuf
    · rw [hok] at hab
      cases hab
    · exact hbuf
  refine ⟨hbuf.valid, hbuf.faithful, ?_⟩
  intro hfresh hopen env hfree
  have hstates : c.core.state ≠ .connecting := by
    intro hstate
    rw [AmqpCore.unconnected, hstate] at hopen
    cases hopen
  have hpolled : c.core.polled = true := by
    cases hp : c.core.polled with
    | true => rfl
    | false => exact (hstates (hbuf.early hp)).elim
  exact (hbuf.answer env).first_read hpolled hopen hfresh
    (hfree ⟨hstates, hbuf.fresh hfresh⟩)

/-- `connection.close`. -/
def closeFrame : List UInt8 :=
  methodFrame
    { channel := 0, classId := connectionId, methodId := connectionCloseId,
      args := putUint16 320 ++ shortstr [] ++ putUint16 0 ++ putUint16 0 }

/-- A connection that is lost after the first command, and the next one: its
first `in_event` reads from the socket. -/
theorem buffers_valid_reconnected :
    ∃ c : AmqpClient Unit (List Message),
      Run step CloseFreeAct (create 64 64 [] () [113] (some 3) 0 0)
        [.register 7, .outEvent (brokerEnv none),
          .inEvent (brokerEnv (some (methodFrame startCommand))), .inEvent (brokerEnv none),
          .outEvent (brokerEnv none)] c ∧
      c.core.connection = 1 ∧ c.core.CursorsValid ∧
      ∃ result, c.core.log ++ [.read c.core.connection result] <+:
        (c.answer (brokerEnv (some (methodFrame startCommand)))).inEvent.core.log := by
  refine Run.exists_of_exec (P := fun c => c.core.connection = 1 ∧
    c.aborted = false ∧ c.core.received = [] ∧ c.core.unconnected = false ∧
    c.CloseFreeAct (.inEvent (brokerEnv (some (methodFrame startCommand)))))
    (by decide +kernel) ?_
  rintro c hrun ⟨hconn, hok, hfresh, hopen, hfree⟩
  obtain ⟨hvalid, _, hfirst⟩ := buffers_valid hrun hok
  exact ⟨hconn, hvalid, hfirst hfresh hopen _ hfree⟩

/-- A close with three bytes after it.  The client has reconnected and the new
connection has been established; its first `in_event` does not read, the cursor
is beyond the end of the buffer, and the decoder holds the three bytes. -/
theorem close_breaks_buffers :
    ∃ c : AmqpClient Unit (List Message),
      Run step Any (create 64 64 [] () [113] (some 3) 0 0)
        [.register 7, .outEvent (brokerEnv none),
          .inEvent (brokerEnv (some (closeFrame ++ [1, 0, 0]))),
          .outEvent (brokerEnv none),
          .inEvent (brokerEnv (some (methodFrame startCommand)))] c ∧
      c.aborted = false ∧ c.core.connection = 1 ∧
      c.core.unconnected = false ∧ c.core.received = [] ∧ c.buf = [1, 0, 0] ∧
      c.core.readSize = 22 ∧ c.core.readPos = 44 :=
  Run.of_exec_any (by decide +kernel)

end ZeroMQ
