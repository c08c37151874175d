import ZeroMQ.Amqp.Client
import ZeroMQ.Amqp.Frames
import ZeroMQ.Lib.Run

/-!
# Publishing and the handshake

The messages of the application are published by the encoder while its flow is
on.  The handshake is in the client, whose state is `state_active` once the
broker has answered `basic.consume`.  The flow and the state must agree, also
when the connection is lost in the middle of a message, and when a callback of
the decoder closes the connection before the decoder has returned.

The bytes of a connection are cut into frames.  As long as `basic.consume_ok`
has not been received, what has been sent, what is in the write buffer and what
the encoder has begun are the protocol header and whole commands of the
handshake.

## Main definitions

* `acceptedBytes` — what the socket has accepted on a connection.
* `AmqpEncoder.Opening` — the output of an encoder during the handshake.
* `AmqpCore.Gated` — the invariant.

## Main results

* `AmqpEncoder.Opening.read` — an encoder whose flow is off.
* `AmqpCore.Gated.receive`, `AmqpCore.Gated.error` — the callbacks, and the end
  of a connection.
* `publishes_after_consumeOk` — every run of the client.
-/

namespace ZeroMQ

open Amqp Lib

variable {cmd : AmqpCommand}

/-! ## Commands that do not publish -/

/-- A frame with `basic.publish`. -/
def IsPublish (frame : List UInt8) : Prop :=
  frame.headD 0 = frameMethod ∧ getUint16 (frame.drop 7) = basicId ∧
    getUint16 (frame.drop 9) = basicPublishId
  deriving Decidable

/-- Another command, whose size can be told in a frame header. -/
structure Plain (cmd : AmqpCommand) : Prop where
  other : ¬ (cmd.classId = basicId ∧ cmd.methodId = basicPublishId)
  short : cmd.args.length ≤ frameMinSize

theorem methodFrame_eq (cmd : AmqpCommand) :
    methodFrame cmd =
      amqpFrameHeader frameMethod cmd.channel (cmd.args.length + 2 + 2) ++
        (putUint16 cmd.classId ++
          (putUint16 cmd.methodId ++ (cmd.args ++ [frameEnd]))) := by
  simp only [methodFrame, methodHeader, List.append_assoc]

theorem Plain.isFrame (h : Plain cmd) :
    amqpFraming.IsFrame (methodFrame cmd) := by
  have hshort : cmd.args.length ≤ 4096 := h.short
  rw [methodFrame_eq]
  apply isFrame_append rfl
  have hsize := (amqpFrameHeader_fields frameMethod cmd.channel
    (cmd.args.length + 2 + 2) []).2.2
  rw [List.append_nil] at hsize
  rw [payloadSize, hsize, UInt32.toNat_ofNat_of_lt' (by
    rw [UInt32.size]
    omega)]
  have hput : ∀ value : UInt16, (putUint16 value).length = 2 := fun _ => rfl
  simp only [List.length_append, hput, List.length_singleton]
  omega

theorem Plain.not_isPublish (h : Plain cmd) :
    ¬ IsPublish (methodFrame cmd) := by
  rintro ⟨_, hclass, hmethod⟩
  apply h.other
  rw [methodFrame_eq] at hclass hmethod
  exact ⟨(getUint16_append cmd.classId _).symm.trans hclass,
    (getUint16_append cmd.methodId _).symm.trans hmethod⟩

theorem marshal_plain {name : AmqpMethod} {classId : UInt16}
    {m : MethodDef AmqpMethod} {channel : UInt16} {values : List FieldValue}
    (hdef : definition amqpClasses name = some (classId, m))
    (hname : name ≠ .basicPublish)
    (h : marshal classId m channel values = some cmd) : Plain cmd := by
  obtain ⟨args, hargs, rfl⟩ := Option.map_eq_some_iff.mp h
  refine ⟨?_, length_putFields_le hargs (Nat.zero_le _)⟩
  have htable : ∀ entry ∈ amqpClasses.flatMap
      (fun c => c.methods.map fun m => (c.id, m)),
      entry.1 = basicId ∧ entry.2.id = basicPublishId →
        entry.2.name = .basicPublish := by decide
  intro hpublish
  rw [definition] at hdef
  have hfound := List.find?_some hdef
  apply hname
  rw [← of_decide_eq_true hfound]
  exact htable _ (List.mem_of_find?_eq_some hdef) hpublish

/-! ## The encoder during the handshake -/

namespace AmqpEncoder

variable {μ : Type} {e : AmqpEncoder μ} {sent : List UInt8}

/-- The commands waiting in the marshaller do not publish. -/
def PlainQueue (e : AmqpEncoder μ) : Prop :=
  ∀ queued ∈ e.derived.commandQueue, Plain queued.2

/-- The bytes that are still to come of the protocol header or of the command
that has been begun. -/
def begun (e : AmqpEncoder μ) : List UInt8 :=
  e.data ++
    match e.next with
    | .commandHeader =>
        (e.derived.command.elim [] fun c => c.2.args) ++ [frameEnd]
    | .commandArguments => [frameEnd]
    | _ => []

/-- Nothing is published: with what is still to come, the bytes sent are the
protocol header and commands. -/
structure Opening (e : AmqpEncoder μ) (sent : List UInt8) : Prop where
  flowOn : e.derived.flowOn = false
  queue : PlainQueue e
  next : e.next = .messageReady ∨ e.next = .commandHeader ∨
    e.next = .commandArguments
  stream : ∃ cmds : List AmqpCommand, (∀ cmd ∈ cmds, Plain cmd) ∧
    sent ++ begun e = protocolHeader ++ (cmds.map methodFrame).flatten

/-- The encoder is at the beginning of a connection. -/
structure Fresh (e : AmqpEncoder μ) : Prop where
  flowOn : e.derived.flowOn = false
  queue : PlainQueue e
  next : e.next = .messageReady
  data : e.data = protocolHeader

theorem Fresh.opening (h : Fresh e) : Opening e [] where
  flowOn := h.flowOn
  queue := h.queue
  next := .inl h.next
  stream := ⟨[], by simp, by
    simp only [begun, h.next, h.data, List.map_nil, List.flatten_nil,
      List.append_nil, List.nil_append]⟩

theorem Fresh.reset (h : PlainQueue e) : Fresh e.reset where
  flowOn := rfl
  queue := h
  next := rfl
  data := rfl

theorem PlainQueue.push (h : PlainQueue e) (hcmd : Plain cmd) :
    PlainQueue (e.push cmd) := by
  intro queued hmem
  rcases List.mem_append.mp hmem with hmem | hmem
  · exact h queued hmem
  · rw [List.mem_singleton.mp hmem]
    exact hcmd

theorem Opening.push (h : Opening e sent) (hcmd : Plain cmd) :
    Opening (e.push cmd) sent where
  flowOn := h.flowOn
  queue := h.queue.push hcmd
  next := h.next
  stream := h.stream

/-- What has been sent has no frame that publishes, wherever it ends. -/
theorem Opening.not_isPublish {rest : List UInt8}
    (h : Opening e (sent ++ rest)) :
    ∀ frame ∈ amqpFraming.split (sent.drop protocolHeader.length),
      ¬ IsPublish frame := by
  obtain ⟨cmds, hplain, hstream⟩ := h.stream
  have hpre : sent.drop protocolHeader.length <+:
      (cmds.map methodFrame).flatten := by
    have hdrop := congrArg (List.drop protocolHeader.length) hstream
    rw [List.append_assoc, List.drop_append, List.drop_left] at hdrop
    exact ⟨_, hdrop⟩
  have hframes : ∀ frame ∈ cmds.map methodFrame,
      amqpFraming.IsFrame frame := by
    intro frame hmem
    obtain ⟨cmd, hcmd, rfl⟩ := List.mem_map.mp hmem
    exact (hplain cmd hcmd).isFrame
  intro frame hmem
  obtain ⟨cmd, hcmd, rfl⟩ := List.mem_map.mp
    ((Framing.split_initial hframes hpre).subset hmem)
  exact (hplain cmd hcmd).not_isPublish

variable [Mux μ]

/-- An action does not change the flow, and at most takes commands from the
queue. -/
theorem action_frame {st : AmqpEncoderState} {d d' : AmqpEncoderData μ}
    {result : Option (EncoderStep AmqpEncoderState)}
    (h : action st d = (result, d')) :
    d'.flowOn = d.flowOn ∧ d'.commandQueue ⊆ d.commandQueue := by
  have hsame : d.flowOn = d.flowOn ∧ d.commandQueue ⊆ d.commandQueue :=
    ⟨rfl, List.Subset.refl _⟩
  rw [action] at h
  split at h
  · cases h
    exact hsame
  · cases st with
    | messageReady =>
        simp only [act, messageReady] at h
        split at h
        · next hqueue =>
            cases h
            rw [hqueue]
            exact ⟨rfl, List.subset_cons_self _ _⟩
        · split at h
          · split at h
            · cases h
              exact hsame
            · split at h <;> cases h <;> exact hsame
          · cases h
            exact hsame
    | frameEnd =>
        simp only [act] at h
        split at h <;> cases h <;> exact hsame
    | commandHeader | commandArguments | contentHeader
    | contentBodyFrameHeader | contentBody =>
        cases h
        exact hsame

theorem read_frame (e : AmqpEncoder μ) (size : Nat) :
    (e.read size).1.derived.flowOn = e.derived.flowOn ∧
      (e.read size).1.derived.commandQueue ⊆ e.derived.commandQueue := by
  have haction : ∀ {st : AmqpEncoderState} {d d' : AmqpEncoderData μ}
      {result : Option (EncoderStep AmqpEncoderState)},
      (d.flowOn = e.derived.flowOn ∧
        d.commandQueue ⊆ e.derived.commandQueue) →
      action st d = (result, d') →
      (d'.flowOn = e.derived.flowOn ∧
        d'.commandQueue ⊆ e.derived.commandQueue) := by
    intro st d d' result hd hact
    obtain ⟨hflow, hqueue⟩ := action_frame hact
    exact ⟨hflow.trans hd.1, List.Subset.trans hqueue hd.2⟩
  exact @Encoder.readLoop_invariant _ _ fsm size
    (fun e' _ => e'.derived.flowOn = e.derived.flowOn ∧
      e'.derived.commandQueue ⊆ e.derived.commandQueue)
    (fun _ _ _ h => h) (fun _ _ _ h => h)
    (fun _ _ _ _ h _ hact => haction h hact)
    (fun _ _ _ h _ hact => haction h hact) e [] none ⟨rfl, List.Subset.refl _⟩

theorem PlainQueue.read (h : PlainQueue e) (size : Nat) :
    PlainQueue (e.read size).1 :=
  fun queued hmem => h queued ((read_frame e size).2 hmem)

theorem Opening.step (h : Opening e sent) (hdata : e.data = [])
    {step : EncoderStep AmqpEncoderState} {derived : AmqpEncoderData μ}
    (hact : action e.next e.derived = (some step, derived)) :
    Opening (Encoder.nextStep step derived) sent := by
  obtain ⟨hflow, hqueue⟩ := action_frame hact
  obtain ⟨cmds, hplain, hstream⟩ := h.stream
  have hqueue' : PlainQueue (Encoder.nextStep step derived) :=
    fun queued hmem => h.queue queued (hqueue hmem)
  rw [action] at hact
  split at hact
  · cases hact
  · rcases h.next with hnext | hnext | hnext
    · rw [hnext] at hact
      simp only [act, messageReady, h.flowOn] at hact
      split at hact
      · next buffer cmd rest hcommands =>
          cases hact
          have hcmd : Plain cmd :=
            h.queue (buffer, cmd) (hcommands ▸ List.mem_cons_self ..)
          rw [begun, hnext, hdata, List.append_nil, List.append_nil] at hstream
          refine ⟨rfl, hqueue', .inr (.inl rfl), cmds ++ [cmd], ?_, ?_⟩
          · exact List.forall_mem_append.mpr
              ⟨hplain, List.forall_mem_singleton.mpr hcmd⟩
          · simp only [begun, Encoder.nextStep, Option.elim_some, hstream,
              methodFrame, List.map_append, List.flatten_append,
              List.map_singleton, List.flatten_singleton, List.append_assoc]
      · cases hact
    · rw [hnext] at hact
      cases hact
      rw [begun, hnext, hdata] at hstream
      exact ⟨h.flowOn, hqueue', .inr (.inr rfl), cmds, hplain, hstream⟩
    · rw [hnext] at hact
      cases hact
      rw [begun, hnext, hdata] at hstream
      exact ⟨h.flowOn, hqueue', .inl rfl, cmds, hplain, hstream⟩

theorem Opening.stop (h : Opening e sent) {derived : AmqpEncoderData μ}
    (hact : action e.next e.derived = (none, derived)) :
    derived = e.derived := by
  rw [action] at hact
  split at hact
  · cases hact
    rfl
  · rcases h.next with hnext | hnext | hnext
    · rw [hnext] at hact
      simp only [act, messageReady, h.flowOn] at hact
      split at hact
      · cases hact
      · cases hact
        rfl
    · rw [hnext] at hact
      cases hact
    · rw [hnext] at hact
      cases hact

theorem Opening.read (h : Opening e sent) (size : Nat) :
    Opening (e.read size).1 (sent ++ (e.read size).2.1) := by
  apply @Encoder.readLoop_invariant _ _ fsm size
    (fun e out => Opening e (sent ++ out))
  · intro e out n h
    obtain ⟨cmds, hplain, hstream⟩ := h.stream
    refine ⟨h.flowOn, h.queue, h.next, cmds, hplain, ?_⟩
    rw [← hstream]
    simp only [begun, List.append_assoc]
    rw [← List.append_assoc (e.data.take n), List.take_append_drop]
  · exact fun _ _ _ h => ⟨h.flowOn, h.queue, h.next, h.stream⟩
  · exact fun _ _ _ _ h hdata hact => h.step hdata hact
  · intro e out derived h _ hact
    rw [h.stop hact]
    exact h
  · rw [List.append_nil]
    exact h

end AmqpEncoder

/-! ## The log -/

/-- The bytes the socket has accepted on a connection. -/
def acceptedBytes (connection : Nat) (log : List AmqpIo) : List UInt8 :=
  log.flatMap fun
    | .write connection' data (some n) =>
        if connection' = connection then data.take n else []
    | _ => []

/-- `basic.consume_ok` has been received on a connection. -/
def ConsumeOk (connection : Nat) (log : List AmqpIo) : Prop :=
  .received connection .basicConsumeOk ∈ log
  deriving Decidable

/-- Nothing has been published on a connection. -/
def Unpublished (connection : Nat) (log : List AmqpIo) : Prop :=
  ∀ frame ∈ amqpFraming.split ((acceptedBytes connection log).drop
    AmqpEncoder.protocolHeader.length), ¬ IsPublish frame

/-- A call that neither sends bytes nor ends the handshake. -/
def Silent (call : AmqpIo) : Prop :=
  ∀ connection, acceptedBytes connection [call] = [] ∧
    call ≠ .received connection .basicConsumeOk

theorem acceptedBytes_append (connection : Nat) (log log' : List AmqpIo) :
    acceptedBytes connection (log ++ log') =
      acceptedBytes connection log ++ acceptedBytes connection log' :=
  List.flatMap_append

section Log

variable {connection : Nat} {log : List AmqpIo} {call : AmqpIo}

theorem Silent.acceptedBytes (h : Silent call) (connection : Nat)
    (log : List AmqpIo) :
    ZeroMQ.acceptedBytes connection (log ++ [call]) =
      ZeroMQ.acceptedBytes connection log := by
  rw [acceptedBytes_append, (h connection).1, List.append_nil]

theorem Silent.consumeOk (h : Silent call) :
    ConsumeOk connection (log ++ [call]) ↔ ConsumeOk connection log := by
  rw [ConsumeOk, List.mem_append, List.mem_singleton]
  exact or_iff_left fun heq => (h connection).2 heq.symm

theorem silent_poller (op : PollerOp) (handle : Nat)
    (registered : Option Nat) : Silent (.poller op handle registered) :=
  fun _ => ⟨rfl, AmqpIo.noConfusion⟩

theorem silent_read (connection : Nat) (result : Option (List UInt8)) :
    Silent (.read connection result) :=
  fun _ => ⟨rfl, AmqpIo.noConfusion⟩

theorem silent_write (connection : Nat) (data : List UInt8) :
    Silent (.write connection data none) :=
  fun _ => ⟨rfl, AmqpIo.noConfusion⟩

theorem silent_decode (bytes : List UInt8) (source before after : Nat) :
    Silent (.decode bytes source before after) :=
  fun _ => ⟨rfl, AmqpIo.noConfusion⟩

/-- What the log says: nothing has been published on a connection before its
handshake was complete, and nothing has happened on connections to come. -/
structure Recorded (connection : Nat) (log : List AmqpIo) : Prop where
  unpublished : ∀ before, before <+: log → ∀ k, ¬ ConsumeOk k before →
    Unpublished k before
  later : ∀ k, connection < k →
    acceptedBytes k log = [] ∧ ¬ ConsumeOk k log

theorem Recorded.snoc (h : Recorded connection log)
    (hnow : ∀ k, ¬ ConsumeOk k (log ++ [call]) → Unpublished k (log ++ [call]))
    (hlater : ∀ k, connection < k → acceptedBytes k [call] = [] ∧
      call ≠ .received k .basicConsumeOk) :
    Recorded connection (log ++ [call]) where
  unpublished before hbefore k hk := by
    rcases List.prefix_concat_iff.mp hbefore with rfl | hbefore
    · exact hnow k hk
    · exact h.unpublished before hbefore k hk
  later k hk := by
    rw [acceptedBytes_append, (h.later k hk).1, (hlater k hk).1, ConsumeOk,
      List.mem_append, List.mem_singleton]
    refine ⟨rfl, ?_⟩
    rintro (hmem | heq)
    · exact (h.later k hk).2 hmem
    · exact (hlater k hk).2 heq.symm

theorem Recorded.silent (h : Recorded connection log) (hcall : Silent call) :
    Recorded connection (log ++ [call]) := by
  refine h.snoc ?_ fun k _ => hcall k
  intro k hk
  rw [Unpublished, hcall.acceptedBytes]
  exact h.unpublished log List.prefix_rfl k (mt hcall.consumeOk.mpr hk)

theorem Recorded.next (h : Recorded connection log) :
    Recorded (connection + 1) log where
  unpublished := h.unpublished
  later k hk := h.later k (by omega)

end Log

/-! ## The client -/

namespace AmqpCore

variable {μ : Type} {c c' : AmqpCore μ} {flow : Bool} {channel : UInt16}
  {calls : List DecoderCall}

/-- There is nothing to send but the beginning of a connection. -/
structure Idle (c : AmqpCore μ) : Prop where
  encoder : c.encoder.Fresh
  written : c.writePos = c.writebuf.length
  accepted : acceptedBytes c.connection c.log = []
  recorded : Recorded c.connection c.log

/-- The invariant; `flow` is the flow of the decoder. -/
structure Gated (flow : Bool) (c : AmqpCore μ) : Prop where
  encoderFlow : c.encoder.derived.flowOn = true ↔ c.state = .active
  decoderFlow : flow = true ↔ c.state = .active
  active : c.state = .active → ConsumeOk c.connection c.log
  queue : c.encoder.PlainQueue
  opening : ¬ ConsumeOk c.connection c.log → c.encoder.Opening
    (acceptedBytes c.connection c.log ++ c.writebuf.drop c.writePos)
  idle : c.unconnected = true → Idle c
  closed : c.state = .waitingForReconnect → c.fd = none
  recorded : Recorded c.connection c.log

theorem ne_active_of_unconnected (h : c.unconnected = true) :
    c.state ≠ .active := by
  intro hactive
  rw [unconnected, hactive] at h
  cases h

theorem Gated.flow_eq_false (h : Gated flow c) (hstate : c.state ≠ .active) :
    flow = false :=
  Bool.eq_false_iff.mpr fun htrue => hstate (h.decoderFlow.mp htrue)

theorem Idle.gated (h : Idle c) (hun : c.unconnected = true)
    (hclosed : c.state = .waitingForReconnect → c.fd = none) :
    Gated false c where
  encoderFlow := by
    rw [h.encoder.flowOn]
    exact ⟨fun hf => (Bool.false_ne_true hf).elim,
      fun ha => (ne_active_of_unconnected hun ha).elim⟩
  decoderFlow := ⟨fun hf => (Bool.false_ne_true hf).elim,
    fun ha => (ne_active_of_unconnected hun ha).elim⟩
  active := fun ha => (ne_active_of_unconnected hun ha).elim
  queue := h.encoder.queue
  opening := fun _ => by
    rw [h.accepted, h.written, List.drop_length]
    exact h.encoder.opening
  idle := fun _ => h
  closed := hclosed
  recorded := h.recorded

theorem Idle.io (h : Idle c) {call : AmqpIo} (hcall : Silent call) :
    Idle (c.io call) where
  encoder := h.encoder
  written := h.written
  accepted := (hcall.acceptedBytes _ _).trans h.accepted
  recorded := h.recorded.silent hcall

theorem Gated.io (h : Gated flow c) {call : AmqpIo} (hcall : Silent call) :
    Gated flow (c.io call) :=
  { h with
    active := fun ha => hcall.consumeOk.mpr (h.active ha)
    opening := fun hk => by
      show c.encoder.Opening (acceptedBytes c.connection (c.log ++ [call]) ++ _)
      rw [hcall.acceptedBytes]
      exact h.opening (mt hcall.consumeOk.mpr hk)
    idle := fun hun => (h.idle hun).io hcall
    recorded := h.recorded.silent hcall }

theorem Gated.pollerOp (h : Gated flow c) (op : PollerOp) :
    Gated flow (c.pollerOp op) :=
  h.io (silent_poller _ _ _)

/-! ### A new connection -/

theorem Idle.reopen (h : Idle c) (hre : c.reopen = some c') :
    Gated false c' := by
  rw [AmqpCore.reopen, Option.ite_none_right_eq_some] at hre
  obtain ⟨hfd, hre⟩ := hre
  split at hre
  · cases hre
    have hidle : Idle c.popReopen.waitForReconnect := { h with }
    exact hidle.gated rfl fun _ => hfd
  · next fd handle _ =>
      cases hre
      have hidle : Idle
          { addFd { c.popReopen with fd := some fd } handle with
            state := .connecting } :=
        { h with
          accepted := ((silent_poller _ _ _).acceptedBytes _ _).trans h.accepted
          recorded := h.recorded.silent (silent_poller _ _ _) }
      exact hidle.gated rfl nofun

/-- The buffers are empty and the connection is a new one. -/
theorem idle_dropSocket (hfresh : c.encoder.Fresh)
    (hrecorded : Recorded c.connection c.log) (h : c.dropSocket = some c') :
    Idle c' := by
  have hlog : Recorded c.connection c.rmFd.log :=
    hrecorded.silent (silent_poller _ _ _)
  rw [dropSocket_eq_some h]
  exact
    { encoder := hfresh
      written := rfl
      accepted := (hlog.later _ (Nat.lt_succ_self _)).1
      recorded := hlog.next }

/-- `reconnect`, when the encoder is at the beginning. -/
theorem gated_reconnect (hfresh : c.encoder.Fresh)
    (hrecorded : Recorded c.connection c.log)
    (hidle : c.state = .waitingForReconnect → Idle c)
    (h : c.reconnect = some c') : Gated false c' := by
  rw [reconnect] at h
  split at h
  · next hwait => exact (hidle hwait).reopen h
  · obtain ⟨c₁, hdrop, h⟩ := Option.bind_eq_some_iff.mp h
    have hidle := idle_dropSocket hfresh hrecorded hdrop
    split at h
    · cases h
      have hfd : c₁.fd = none := by rw [dropSocket_eq_some hdrop]
      have hwait : Idle c₁.waitForReconnect := { hidle with }
      exact hwait.gated rfl fun _ => hfd
    · exact hidle.reopen h

theorem Gated.error (h : Gated flow c) (herror : c.error = some (c', calls)) :
    Gated (calls.foldl AmqpDecoder.flowAfter flow) c' := by
  obtain ⟨env, ⟨hun, rfl, hre⟩ | ⟨hun, rfl, hre⟩⟩ := error_cases herror
  · rw [List.foldl_nil, h.flow_eq_false (ne_active_of_unconnected hun)]
    refine gated_reconnect ?_ ?_ ?_ hre
    · exact (h.idle hun).encoder
    · exact h.recorded
    · exact fun _ => { h.idle hun with }
  · refine gated_reconnect ?_ ?_ ?_ hre
    · exact AmqpEncoder.Fresh.reset h.queue
    · exact h.recorded
    · intro hwait
      have hwait : c.state = .waitingForReconnect := hwait
      rw [unconnected, hwait] at hun
      cases hun

/-! ### The callbacks -/

theorem Gated.send (h : Gated flow c) {name : AmqpMethod}
    {values : List FieldValue} (hname : name ≠ .basicPublish)
    (hsend : c.send name channel values = some c') (hstate : Shaking c.state) :
    Gated flow c' ∧ Shaking c'.state := by
  simp only [AmqpCore.send, Option.bind_eq_bind, Option.bind_eq_some_iff,
    Option.pure_def, Option.some.injEq] at hsend
  obtain ⟨⟨classId, m⟩, hdef, cmd, hcmd, rfl⟩ := hsend
  have hplain : Plain cmd := marshal_plain hdef hname hcmd
  refine ⟨?_, hstate⟩
  exact
    { h with
      queue := h.queue.push hplain
      opening := fun hk => (h.opening hk).push hplain
      idle := fun hun => by
        simp [unconnected, hstate.1, hstate.2.1] at hun }

theorem Gated.shake (h : Gated flow c) (hactive : c.state ≠ .active)
    {state : AmqpState} (hstate : Shaking state) :
    Gated flow { c with state := state } :=
  { h with
    encoderFlow := ⟨fun hf => (hactive (h.encoderFlow.mp hf)).elim,
      fun ha => (hstate.2.2 ha).elim⟩
    decoderFlow := ⟨fun hf => (hactive (h.decoderFlow.mp hf)).elim,
      fun ha => (hstate.2.2 ha).elim⟩
    active := fun ha => (hstate.2.2 ha).elim
    idle := fun hun => by
      simp [unconnected, hstate.1, hstate.2.1] at hun
    closed := fun hwait => (hstate.2.1 hwait).elim }

theorem Gated.enter (h : Gated flow c ∧ Shaking c.state) {state : AmqpState}
    (hstate : Shaking state) : Gated flow (enter state c) :=
  (h.1.shake h.2.2.2 hstate).pollerOp .setPollout

theorem Gated.sends (h : Gated flow c) (hstate : Shaking c.state)
    (hsends : Sends c c') : Gated flow c' ∧ Shaking c'.state := by
  induction hsends with
  | refl => exact ⟨h, hstate⟩
  | channel channel _ ih =>
      exact ⟨{ ih.1 with idle := fun hun => { ih.1.idle hun with } }, ih.2⟩
  | send _ hname hsend ih => exact ih.1.send hname hsend ih.2

/-- The handshake is complete. -/
theorem Gated.basicConsumeOk (h : Gated flow c) :
    Gated true (AmqpCore.enter .active
      { c.io (.received c.connection .basicConsumeOk) with
        encoder := c.encoder.flow true c.channel }) := by
  have hok : ConsumeOk c.connection
      (c.log ++ [.received c.connection .basicConsumeOk]) :=
    List.mem_append_right _ (List.mem_singleton.mpr rfl)
  refine Gated.pollerOp ?_ .setPollout
  exact
    { encoderFlow := ⟨fun _ => rfl, fun _ => rfl⟩
      decoderFlow := ⟨fun _ => rfl, fun _ => rfl⟩
      active := fun _ => hok
      queue := h.queue
      opening := fun hk => (hk hok).elim
      idle := nofun
      closed := nofun
      recorded := by
        refine h.recorded.snoc ?_ ?_
        · intro k hk
          have hnone : acceptedBytes k
              [.received c.connection .basicConsumeOk] = [] := rfl
          rw [Unpublished, acceptedBytes_append, hnone, List.append_nil]
          exact h.recorded.unpublished c.log List.prefix_rfl k
            fun hmem => hk (List.mem_append_left _ hmem)
        · intro k hk
          refine ⟨rfl, ?_⟩
          rintro heq
          cases heq
          exact Nat.lt_irrefl _ hk }

theorem Gated.receive (h : Gated flow c) {call : MethodCall AmqpMethod}
    (hcall : c.receive call = some (c', calls)) :
    Gated (calls.foldl AmqpDecoder.flowAfter flow) c' := by
  have hlogged : call.method ≠ .basicConsumeOk →
      Gated flow (c.io (.received c.connection call.method)) := by
    intro hmethod
    refine h.io fun k => ⟨rfl, ?_⟩
    intro heq
    injection heq with _ heq
    exact hmethod heq
  cases Handled.of_receive hcall with
  | shake hmethod hfrom hsends hto =>
      exact Gated.enter ((hlogged hmethod).sends hfrom hsends) hto
  | consumeOk hmethod =>
      rw [hmethod]
      exact h.basicConsumeOk
  | close hmethod herror =>
      refine (hlogged ?_).error herror
      rcases hmethod with hmethod | hmethod <;> simp [hmethod]

theorem Gated.unmarshal (h : Gated flow c)
    (hcall : AmqpUnmarshaller.write c cmd = some (c', calls)) :
    Gated (calls.foldl AmqpDecoder.flowAfter flow) c' := by
  obtain ⟨call, _, hcall⟩ := Option.bind_eq_some_iff.mp hcall
  cases call with
  | none =>
      cases hcall
      exact h
  | some call => exact h.receive hcall

end AmqpCore

namespace AmqpClient

variable {δ μ : Type} {c : AmqpClient δ μ}

/-- The invariant of a client. -/
def Gated (c : AmqpClient δ μ) : Prop := c.core.Gated c.derived.flowOn

/-- What a handler leaves behind, unless an assertion has failed. -/
def KeepsGate (c : AmqpClient δ μ) : Prop := c.aborted = true ∨ Gated c

theorem KeepsGate.abort (c : AmqpClient δ μ) : KeepsGate c.abort := .inl rfl

theorem Gated.mapDemux (h : Gated c) (f : δ → δ) :
    Gated (c.mapDemux f) := h

theorem Gated.pollerOp (h : Gated c) (op : PollerOp) :
    Gated (c.mapCore fun core => core.pollerOp op) :=
  AmqpCore.Gated.pollerOp h op

/-- The invariant is not about the read buffer, the timers and the answers. -/
theorem Gated.answer (h : Gated c) (env : AmqpEnv) : Gated (c.answer env) :=
  { h with idle := fun hun => { h.idle hun with } }

theorem Gated.setMux (h : Gated c) (mux : μ) : Gated (c.setMux mux) :=
  { h with
    opening := fun hk => { h.opening hk with }
    idle := fun hun =>
      { h.idle hun with encoder := { (h.idle hun).encoder with } } }

theorem Gated.readbuf (h : Gated c) (result : Option (List UInt8))
    (readbuf : List UInt8) (readSize readPos : Int) (source : Nat)
    (received : List (List UInt8)) :
    Gated (c.mapCore fun core =>
      { core.io (.read core.connection result) with
        readbuf := readbuf
        readSize := readSize
        readPos := readPos
        source := source
        received := received }) := by
  have hio := AmqpCore.Gated.io h (silent_read c.core.connection result)
  exact { hio with idle := fun hun => { hio.idle hun with } }

theorem Gated.sendTo (h : Gated c) (noPipes : Bool) (demux : δ) :
    Gated (c.sendTo noPipes demux) := by
  unfold AmqpClient.sendTo
  dsimp only
  split
  · exact h.pollerOp .setPollin
  · exact h

theorem Gated.receiveFrom (h : Gated c) (mux : μ) :
    Gated (c.receiveFrom mux) := by
  unfold AmqpClient.receiveFrom
  dsimp only
  split
  · exact (h.setMux mux).pollerOp .setPollout
  · exact h.setMux mux

theorem Gated.registerEvent (h : Gated c) (handle : Nat) :
    KeepsGate (c.registerEvent handle) := by
  unfold AmqpClient.registerEvent
  split
  · right
    have hio := AmqpCore.Gated.io h (silent_poller .setPollout handle
      (some handle))
    exact { hio with idle := fun hun => { hio.idle hun with } }
  · exact KeepsGate.abort c

theorem Gated.create (writebufSize readbufSize : Nat) (mux : μ) (demux : δ)
    (arguments : List UInt8) (fd : Option Nat) (channel : UInt16)
    (handle : Nat) :
    Gated (AmqpClient.create writebufSize readbufSize mux demux arguments fd
      channel handle) := by
  have hrecorded : Recorded 0 [] := by
    refine ⟨?_, fun k _ => ⟨rfl, List.not_mem_nil⟩⟩
    intro before hbefore k _
    rw [List.prefix_nil.mp hbefore]
    intro frame hmem
    rw [acceptedBytes, List.flatMap_nil, List.drop_nil, Framing.split,
      if_neg (by decide)] at hmem
    cases hmem
  refine AmqpCore.Idle.gated ⟨?_, rfl, rfl, hrecorded⟩ rfl ?_
  · exact ⟨rfl, fun _ hmem => (List.not_mem_nil hmem).elim, rfl, rfl⟩
  · intro hflow
    cases hflow

/-! ### Events -/

theorem Gated.fill [Mux μ] (h : Gated c) (hopen : c.core.unconnected = false) :
    Gated c.fill := by
  unfold AmqpClient.fill
  split
  · next hempty =>
      have hread : Gated (c.mapCore fun core =>
          { core with
            encoder := (core.encoder.read core.writebufSize).1
            writebuf := (core.encoder.read core.writebufSize).2.1
            writePos := 0 }) :=
        { h with
          encoderFlow := by
            show (c.core.encoder.read _).1.derived.flowOn = true ↔ _
            rw [(AmqpEncoder.read_frame _ _).1]
            exact h.encoderFlow
          queue := AmqpEncoder.PlainQueue.read h.queue _
          opening := fun hk => by
            have hopening := h.opening hk
            rw [hempty, List.drop_length, List.append_nil] at hopening
            exact hopening.read c.core.writebufSize
          idle := fun hun => (Bool.false_ne_true (hopen.symm.trans hun)).elim }
      simp only [mapCore]
      split
      · exact hread.pollerOp .resetPollout
      · exact hread
  · exact h

theorem state_fill [Mux μ] (c : AmqpClient δ μ) :
    c.fill.core.state = c.core.state := by
  unfold AmqpClient.fill
  split
  · simp only [mapCore]
    split <;> rfl
  · rfl

theorem Gated.accept (h : Gated c) (hopen : c.core.unconnected = false)
    (n : Nat) :
    Gated (c.mapCore fun core =>
      { core.io (.write core.connection (core.writebuf.drop core.writePos)
          (some n)) with
        writePos := core.writePos + n }) := by
  have hconsume : ∀ {k : Nat}, ConsumeOk k (c.core.log ++
      [.write c.core.connection (c.core.writebuf.drop c.core.writePos)
        (some n)]) ↔ ConsumeOk k c.core.log := by
    intro k
    rw [ConsumeOk, List.mem_append, List.mem_singleton]
    exact or_iff_left AmqpIo.noConfusion
  have hother : ∀ {k : Nat}, k ≠ c.core.connection → acceptedBytes k
      [.write c.core.connection (c.core.writebuf.drop c.core.writePos)
        (some n)] = [] := by
    intro k hk
    simp [acceptedBytes, Ne.symm hk]
  have hopening : ¬ ConsumeOk c.core.connection c.core.log →
      c.core.encoder.Opening
        (acceptedBytes c.core.connection (c.core.log ++
            [.write c.core.connection (c.core.writebuf.drop c.core.writePos)
              (some n)]) ++
          c.core.writebuf.drop (c.core.writePos + n)) := by
    intro hk
    have hbefore := h.opening hk
    rw [← List.take_append_drop n (c.core.writebuf.drop c.core.writePos),
      List.drop_drop, ← List.append_assoc] at hbefore
    rw [acceptedBytes_append]
    simpa [acceptedBytes] using hbefore
  exact
    { h with
      active := fun ha => hconsume.mpr (h.active ha)
      opening := fun hk => hopening (mt hconsume.mpr hk)
      idle := fun hun => (Bool.false_ne_true (hopen.symm.trans hun)).elim
      recorded := by
        refine h.recorded.snoc ?_ ?_
        · intro k hk
          by_cases heq : k = c.core.connection
          · subst heq
            exact (hopening (mt hconsume.mpr hk)).not_isPublish
          · rw [Unpublished, acceptedBytes_append, hother heq, List.append_nil]
            exact h.recorded.unpublished _ List.prefix_rfl k
              (mt hconsume.mpr hk)
        · intro k hk
          exact ⟨hother (Nat.ne_of_gt hk), AmqpIo.noConfusion⟩ }

variable [IDemux δ]

/-- What the other members have become, with the calls of the decoder. -/
theorem gated_apply {core : AmqpCore μ} {calls : List DecoderCall}
    (h : core.Gated (calls.foldl AmqpDecoder.flowAfter c.derived.flowOn)) :
    Gated (c.apply (some (core, calls))) := by
  have hfold : ∀ (calls : List DecoderCall) (c : AmqpClient δ μ),
      (calls.foldl decoderCall c).core = c.core ∧
        (calls.foldl decoderCall c).derived.flowOn =
          calls.foldl AmqpDecoder.flowAfter c.derived.flowOn := by
    intro calls
    induction calls with
    | nil => exact fun c => ⟨rfl, rfl⟩
    | cons call calls ih =>
        intro c
        obtain ⟨hcore, hflow⟩ := ih (c.decoderCall call)
        rw [List.foldl_cons, List.foldl_cons, hcore, hflow]
        cases call with
        | flow flowOn channel => exact ⟨rfl, rfl⟩
        | gap => exact ⟨rfl, rfl⟩
        | reset => exact ⟨core_decoderCall c .reset, rfl⟩
  obtain ⟨hcore, hflow⟩ := hfold calls (c.withCore core)
  rw [Gated, apply, hcore, hflow]
  exact h

theorem Gated.error (h : Gated c) : KeepsGate c.error := by
  unfold AmqpClient.error
  cases herror : c.core.error with
  | none => exact KeepsGate.abort c
  | some r => exact .inr (gated_apply (AmqpCore.Gated.error h herror))

theorem Gated.write (h : Gated c) (data : List UInt8) :
    Gated (AmqpDecoder.write c data).1 := by
  have haction : ∀ {st : AmqpDecoderState} {buf : List UInt8}
      {d d' : AmqpDecoderData δ (AmqpCore μ)}
      {result : Option (Nat × AmqpDecoderState)},
      d.callback.Gated d.flowOn → AmqpDecoder.action st buf d = (result, d') →
      d'.callback.Gated d'.flowOn := by
    intro st buf d d' result hd hact
    rcases AmqpDecoder.action_callback hact with ⟨hcore, hflow⟩ |
      ⟨cmd, calls, hwrite, hflow⟩
    · rw [hcore, hflow]
      exact hd
    · rw [hflow]
      exact hd.unmarshal hwrite
  exact @Decoder.write_invariant _ _ AmqpDecoder.fsm (fun d _ => Gated d)
    (fun _ _ _ hd _ => hd)
    (fun _ _ _ _ _ hd _ hact => haction hd hact)
    (fun _ _ _ hd _ hact => haction hd hact) c data [] h

omit [IDemux δ] in
theorem Gated.processed (h : Gated c) (stuck : Bool) (data : List UInt8)
    (before nbytes : Nat) :
    Gated (c.mapCore (AmqpClient.processed stuck data before nbytes)) := by
  have hio := AmqpCore.Gated.io h
    (silent_decode data c.core.source before c.core.connection)
  have hpos : Gated (c.mapCore fun core =>
      { core.io (.decode data core.source before core.connection) with
        readPos := core.readPos + nbytes }) :=
    { hio with idle := fun hun => { hio.idle hun with } }
  simp only [mapCore, AmqpClient.processed, repoll]
  split
  · split
    · exact hpos.pollerOp .setPollin
    · exact hpos
  · split
    · exact hpos.pollerOp .resetPollin
    · exact hpos

theorem Gated.decode (h : Gated c) (stuck : Bool) :
    KeepsGate (c.decode stuck) := by
  unfold AmqpClient.decode
  split
  · dsimp only
    split
    · next hab => exact .inl hab
    · have hwrite := (h.write (c.core.readbuf.drop c.core.readPos.toNat))
      right
      split
      · exact (hwrite.processed ..).mapDemux _
      · exact hwrite.processed ..
  · exact .inr h

theorem Gated.inEvent (h : Gated c) : KeepsGate c.inEvent := by
  unfold AmqpClient.inEvent
  split
  · split
    · exact h.error
    · exact KeepsGate.abort c
  · split
    · unfold AmqpClient.receive
      split
      · exact KeepsGate.abort c
      · split
        · exact (h.readbuf none c.core.readbuf (-1) 0 c.core.source
            c.core.received).error
        · exact (h.readbuf ..).decode false
    · exact h.decode _

theorem Gated.send (h : Gated c) (hopen : c.core.unconnected = false) :
    KeepsGate c.send := by
  unfold AmqpClient.send
  split
  · split
    · exact KeepsGate.abort c
    · dsimp only
      split
      · have hio := AmqpCore.Gated.io h (silent_write c.core.connection
          (c.core.writebuf.drop c.core.writePos))
        exact Gated.error hio
      · exact .inr (h.accept hopen _)
  · exact .inr h

/-- There is no socket to write to. -/
theorem keepsGate_send_of_closed
    (hlt : c.core.writePos < c.core.writebuf.length) (hfd : c.core.fd = none) :
    KeepsGate c.send := by
  unfold AmqpClient.send
  rw [if_pos hlt, if_pos hfd]
  exact KeepsGate.abort c

theorem Gated.timerEvent (h : Gated c) : KeepsGate c.timerEvent := by
  unfold AmqpClient.timerEvent
  split
  · next hwait =>
      have hun : c.core.unconnected = true := by
        rw [AmqpCore.unconnected, hwait]
        rfl
      have hidle := h.idle hun
      cases hre : c.core.reconnect with
      | none => exact KeepsGate.abort c
      | some core =>
          right
          refine gated_apply ?_
          rw [List.foldl_nil, AmqpCore.Gated.flow_eq_false h
            (AmqpCore.ne_active_of_unconnected hun)]
          exact AmqpCore.gated_reconnect hidle.encoder h.recorded
            (fun _ => hidle) hre
  · exact KeepsGate.abort c

variable [Mux μ]

/-- While the client waits, `out_event` sends nothing. -/
theorem Gated.send_fill_of_waiting (h : Gated c)
    (hwait : c.core.state = .waitingForReconnect) :
    KeepsGate c.fill.send := by
  have hun : c.core.unconnected = true := by
    rw [AmqpCore.unconnected, hwait]
    rfl
  have hidle := h.idle hun
  have hfd : c.core.fd = none := h.closed hwait
  have hdata : c.core.encoder.data ≠ [] := by
    rw [hidle.encoder.data]
    decide
  have hflow : c.derived.flowOn = false :=
    AmqpCore.Gated.flow_eq_false h (AmqpCore.ne_active_of_unconnected hun)
  unfold AmqpClient.fill
  rw [if_pos hidle.written]
  rcases Nat.eq_zero_or_pos c.core.writebufSize with hsize | hsize
  · -- there is no room in the buffer, and nothing is read
    have hread : c.core.encoder.read c.core.writebufSize =
        (c.core.encoder, [], none) := by
      rw [hsize]
      exact Encoder.read_zero _ _
    have hempty : Gated (c.mapCore fun core =>
        { core with writebuf := [], writePos := 0 }) := by
      show AmqpCore.Gated c.derived.flowOn _
      rw [hflow]
      exact AmqpCore.Idle.gated { hidle with written := rfl } hun fun _ => hfd
    simp only [mapCore, hread]
    exact .inr (hempty.pollerOp .resetPollout)
  · have hout : (c.core.encoder.read c.core.writebufSize).2.1 ≠ [] :=
      Encoder.read_ne_nil hdata hsize
    simp only [mapCore, if_neg hout]
    exact keepsGate_send_of_closed (List.length_pos_iff.mpr hout) hfd

theorem Gated.outEvent (h : Gated c) : KeepsGate c.outEvent := by
  unfold AmqpClient.outEvent
  split
  · next hstate =>
      split
      · exact h.error
      · right
        exact AmqpCore.Gated.shake (AmqpCore.Gated.pollerOp h .setPollin)
          (by
            show c.core.state ≠ .active
            rw [hstate]
            decide) (by decide)
  · next hstate =>
      split
      · next hab => exact .inl hab
      · by_cases hwait : c.core.state = .waitingForReconnect
        · exact h.send_fill_of_waiting hwait
        · have hopen : c.core.unconnected = false := by
            simp [AmqpCore.unconnected, hstate, hwait]
          refine (h.fill hopen).send ?_
          rw [AmqpCore.unconnected, state_fill]
          exact hopen

theorem Gated.revive (h : Gated c) (mux : μ) : KeepsGate (c.revive mux) := by
  unfold AmqpClient.revive
  split
  · dsimp only
    split
    · exact ((h.setMux mux).pollerOp .setPollout).outEvent
    · exact .inr (h.setMux mux)
  · exact .inr h

theorem Gated.step {c c' : AmqpClient δ μ} {act : AmqpAct δ μ} (h : Gated c)
    (hstep : Step c act c') : KeepsGate c' := by
  cases hstep with
  | register hp => exact h.registerEvent _
  | @inEvent env hreg => exact (h.answer env).inEvent
  | @outEvent env hreg => exact (h.answer env).outEvent
  | @timer env ht =>
      have htimer : Gated (mapCore
          (fun core => { core with timers := core.timers - 1 })
          (c.answer env)) :=
        { h.answer env with
          idle := fun hun => { (h.answer env).idle hun with } }
      exact htimer.timerEvent
  | @head demux env hp =>
      unfold AmqpClient.head
      split
      · exact ((h.answer env).mapDemux fun _ => demux).inEvent
      · exact .inr (h.answer env)
  | @revive mux env hp => exact (h.answer env).revive mux
  | sendTo hp => exact .inr (h.sendTo _ _)
  | receiveFrom hp => exact .inr (h.receiveFrom _)
  | pipes => exact .inr ((h.setMux _).mapDemux _)

end AmqpClient

open AmqpClient

/-- In every run the flow is on in the codecs exactly while the client is
active, and a frame that publishes is preceded by a `basic.consume_ok` received
on its connection: this holds of every log the run has gone through. -/
theorem publishes_after_consumeOk {δ μ : Type} [IDemux δ] [Mux μ]
    {writebufSize readbufSize : Nat} {mux : μ} {demux : δ}
    {arguments : List UInt8} {fd : Option Nat} {channel : UInt16}
    {handle : Nat} {acts : List (AmqpAct δ μ)} {c : AmqpClient δ μ}
    (h : Run step Any
      (create writebufSize readbufSize mux demux arguments fd channel handle)
      acts c) (hok : c.aborted = false) :
    (c.core.encoder.derived.flowOn = true ↔ c.core.state = .active) ∧
      (c.derived.flowOn = true ↔ c.core.state = .active) ∧
      ∀ log, log <+: c.core.log → ∀ connection,
        ∀ frame ∈ amqpFraming.split ((acceptedBytes connection log).drop
          AmqpEncoder.protocolHeader.length),
          IsPublish frame →
            .received connection .basicConsumeOk ∈ log := by
  have hkeeps : KeepsGate c := by
    refine h.invariant (I := KeepsGate) ?_ (.inr (Gated.create ..))
    intro c act c' hkeeps _ hstep
    obtain ⟨hlive, hstep⟩ := Step.of_step hstep
    rcases hkeeps with hab | hgated
    · exact (Bool.false_ne_true (hlive.symm.trans hab)).elim
    · exact hgated.step hstep
  rcases hkeeps with hab | hgated
  · exact (Bool.false_ne_true (hok.symm.trans hab)).elim
  · refine ⟨hgated.encoderFlow, hgated.decoderFlow, ?_⟩
    intro log hlog connection frame hmem hpublish
    by_cases hconsume : ConsumeOk connection log
    · exact hconsume
    · exact (hgated.recorded.unpublished log hlog connection hconsume frame
        hmem hpublish).elim

/-- The handshake, and a message that is published. -/
theorem publishes_after_consumeOk_active :
    ∃ c : AmqpClient Unit (List Message),
      Run step Any (create 256 256 [[1, 2, 3]] () [113] (some 3) 0 0)
        [.register 7, .outEvent (brokerEnv none),
          .inEvent (brokerEnv (some (handshake.flatMap methodFrame))),
          .outEvent (brokerEnv none), .outEvent (brokerEnv none)] c ∧
      c.core.state = .active ∧ c.derived.flowOn = true ∧
      (∃ frame ∈ amqpFraming.split ((acceptedBytes 0 c.core.log).drop
        AmqpEncoder.protocolHeader.length), IsPublish frame) ∧
      .received 0 .basicConsumeOk ∈ c.core.log := by
  refine Run.exists_of_exec (P := fun c => c.aborted = false ∧
    c.core.state = .active ∧
    ∃ frame ∈ amqpFraming.split ((acceptedBytes 0 c.core.log).drop
      AmqpEncoder.protocolHeader.length), IsPublish frame)
    (by decide +kernel) ?_
  rintro c hrun ⟨hok, hactive, frame, hmem, hpublish⟩
  obtain ⟨_, hflow, hbefore⟩ := publishes_after_consumeOk hrun hok
  exact ⟨hactive, hflow.mpr hactive, ⟨frame, hmem, hpublish⟩,
    hbefore c.core.log List.prefix_rfl 0 frame hmem hpublish⟩

end ZeroMQ
