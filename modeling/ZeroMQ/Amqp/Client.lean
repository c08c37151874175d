import ZeroMQ.Amqp.Decoder
import ZeroMQ.Amqp.Methods
import ZeroMQ.Engine.Basic

/-!
# `amqp_client_t`

The engine of `libzmq/amqp_client.cpp` connects to an AMQP broker.  The poller
calls its event handlers and other threads send it commands.  Unlike the other
engines it is called by its own decoder: a command the decoder has received goes
through the unmarshaller to a method of the client, in the middle of
`decoder_t::write` and so in the middle of `in_event`.  Such a method may go as
far as closing the socket and resetting the codecs.

The members of the client other than its decoder are therefore the callback of
the decoder (`AmqpCore`), and a client is a decoder with such a callback.  What
a method does to the decoder that calls it is returned as a list of calls.

What the surroundings answer during a handler is a part of the label of the step
(`AmqpEnv`).  The calls to the socket, to the decoder and to the poller are
recorded (`AmqpIo`).  A failed assertion stops the process; the client is then
`aborted`.  A `read` or `write` on a socket that is closed is answered with
`EBADF` and fails an assertion in `tcp_socket_t`.

## Main definitions

* `AmqpCore` — the members of the client, without the decoder.
* `AmqpCore.error`, `reconnect` — how a connection ends.
* `AmqpCore.receive` — the callbacks of the unmarshaller.
* `AmqpClient.inEvent`, `outEvent`, `timerEvent`, `revive`, `head`, `sendTo`,
  `receiveFrom` — the handlers.
* `AmqpClient.step` — the handlers, where the poller and the other threads may
  call them.
-/

namespace ZeroMQ

open Amqp

/-- `amqp_client_t::state_t`. -/
inductive AmqpState where
  | connecting
  | waitingForConnectionStart
  | waitingForConnectionTune
  | waitingForConnectionOpenOk
  | waitingForChannelOpenOk
  | waitingForQueueDeclareOk
  | waitingForBasicConsumeOk
  | active
  | waitingForReconnect
  | shuttingDown
  deriving DecidableEq, Repr

/-- What the surroundings answer during one handler: the results of the socket
calls, and those of the calls that can be made more than once, in their order:
whether the application's error handler lets the client continue, and the file
descriptor and the handle a reconnection gives. -/
structure AmqpEnv where
  read : Option (List UInt8)
  write : Option Nat
  socketError : Bool
  handlers : List Bool
  reopens : List (Option (Nat × Nat))
  deriving DecidableEq, Repr

/-- The calls of a client and those it receives.  A `read`, a `write` and a
method `received` have the connection they are made on, counted from 0.  A
`decode` has the bytes given to the decoder, the connection they were read from,
and the connection before and after the call. -/
inductive AmqpIo where
  | read (connection : Nat) (result : Option (List UInt8))
  | write (connection : Nat) (data : List UInt8) (result : Option Nat)
  | received (connection : Nat) (method : AmqpMethod)
  | decode (bytes : List UInt8) (source before after : Nat)
  | poller (op : PollerOp) (handle : Nat) (registered : Option Nat)
  deriving DecidableEq, Repr

/-- The members of `amqp_client_t` other than the decoder, with `writebuf` and
`readbuf` holding the bytes in use; then what the poller knows and what the
surroundings answer to the present handler.  The last four are histories: the
number of the connection, the connection `readbuf` was read from, the results of
the reads from the present connection, and the calls made. -/
structure AmqpCore (μ : Type) where
  state : AmqpState
  channel : UInt16
  encoder : AmqpEncoder μ
  writebufSize : Nat
  writebuf : List UInt8
  writePos : Nat
  readbufSize : Nat
  readbuf : List UInt8
  readSize : Int
  readPos : Int
  arguments : List UInt8
  fd : Option Nat
  handle : Nat
  polled : Bool
  registered : Option Nat
  timers : Nat
  env : AmqpEnv
  connection : Nat
  source : Nat
  received : List (List UInt8)
  log : List AmqpIo

namespace AmqpCore

variable {μ : Type}

/-! ## Calls to the surroundings -/

/-- Record a call. -/
def io (c : AmqpCore μ) (call : AmqpIo) : AmqpCore μ :=
  { c with log := c.log ++ [call] }

/-- A poller operation on the client's handle. -/
def pollerOp (c : AmqpCore μ) (op : PollerOp) : AmqpCore μ :=
  c.io (.poller op c.handle c.registered)

/-- `rm_fd`. -/
def rmFd (c : AmqpCore μ) : AmqpCore μ :=
  { c.pollerOp .rmFd with
    registered := if c.registered = some c.handle then none else c.registered }

/-- `handle = poller->add_fd (...)` and `poller->set_pollout (handle)`. -/
def addFd (c : AmqpCore μ) (handle : Nat) : AmqpCore μ :=
  pollerOp { c with handle := handle, registered := some handle } .setPollout

/-- `tcp_socket_t::close`, which asserts that there is a socket. -/
def close (c : AmqpCore μ) : Option (AmqpCore μ) :=
  if c.fd = none then none else some { c with fd := none }

/-! ## The connection -/

/-- Stop polling, close the socket and clear the buffers. -/
def dropSocket (c : AmqpCore μ) : Option (AmqpCore μ) :=
  c.rmFd.close.map fun c =>
    { c with
      readPos := c.readSize
      writePos := c.writebuf.length
      connection := c.connection + 1
      received := [] }

/-- Wait a while before the next attempt. -/
def waitForReconnect (c : AmqpCore μ) : AmqpCore μ :=
  { c with timers := c.timers + 1, state := .waitingForReconnect }

/-- The answers that are left after a call of `reopen`. -/
def popReopen (c : AmqpCore μ) : AmqpCore μ :=
  { c with env := { c.env with reopens := c.env.reopens.tail } }

/-- `socket.reopen ()`, which asserts that there is no socket, and the rest of
`reconnect`. -/
def reopen (c : AmqpCore μ) : Option (AmqpCore μ) :=
  if c.fd = none then
    match c.env.reopens.headD none with
    | none => some c.popReopen.waitForReconnect
    | some (fd, handle) =>
        some
          { addFd { c.popReopen with fd := some fd } handle with
            state := .connecting }
  else none

/-- `reconnect`. -/
def reconnect (c : AmqpCore μ) : Option (AmqpCore μ) :=
  if c.state = .waitingForReconnect then c.reopen
  else
    c.dropSocket.bind fun c =>
      if c.state = .connecting then some c.waitForReconnect else c.reopen

/-- There is no connection, and so nothing half-processed. -/
def unconnected (c : AmqpCore μ) : Bool :=
  c.state = .connecting || c.state = .waitingForReconnect

/-- The call of the application's error handler, which must not return false. -/
def report (c : AmqpCore μ) : Option (AmqpCore μ) :=
  if c.env.handlers.headD true then
    some { c with env := { c.env with handlers := c.env.handlers.tail } }
  else none

/-- `error`, with what is done to the decoder. -/
def error (c : AmqpCore μ) : Option (AmqpCore μ × List DecoderCall) :=
  if c.unconnected then
    (c.report.bind reconnect).map fun c => (c, [])
  else
    (report { c with encoder := c.encoder.reset } |>.bind reconnect).map
      fun c => (c, [.gap, .reset])

/-! ## The callbacks -/

/-- The constructor of `shortstr_t`. -/
def shortstrT (string : List UInt8) : Option FieldValue :=
  if string.length ≤ 0xff then some (.shortstr string) else none

/-- A method of the marshaller is called. -/
def send (name : AmqpMethod) (channel : UInt16) (values : List FieldValue)
    (c : AmqpCore μ) : Option (AmqpCore μ) := do
  let (classId, m) ← definition amqpClasses name
  let cmd ← marshal classId m channel values
  return { c with encoder := c.encoder.push cmd }

/-- The end of a callback: a new state, and data to send. -/
def enter (state : AmqpState) (c : AmqpCore μ) : AmqpCore μ :=
  pollerOp { c with state := state } .setPollout

/-- `connection_start`: log in as guest. -/
def connectionStart (channel : UInt16) (versionMajor versionMinor : UInt8)
    (c : AmqpCore μ) : Option (AmqpCore μ) :=
  if channel = 0 ∧ c.state = .waitingForConnectionStart ∧
      versionMajor = 0 ∧ versionMinor = 9 then
    (c.send .connectionStartOk 0
      [.table ∅, .shortstr [80, 76, 65, 73, 78],
        .longstr [0, 103, 117, 101, 115, 116, 0, 103, 117, 101, 115, 116],
        .shortstr [101, 110, 95, 85, 83]]).map
      (enter .waitingForConnectionTune)
  else none

/-- `connection_tune`: one channel, the smallest frames, no heartbeat; then the
virtual host "/". -/
def connectionTune (channel : UInt16) (c : AmqpCore μ) : Option (AmqpCore μ) :=
  if channel = 0 ∧ c.state = .waitingForConnectionTune then do
    let c ← c.send .connectionTuneOk 0
      [.short 1, .long (UInt32.ofNat frameMinSize), .short 0]
    let c ← c.send .connectionOpen 0 [.shortstr [47], .shortstr [], .bit true]
    return enter .waitingForConnectionOpenOk c
  else none

/-- `connection_open_ok`. -/
def connectionOpenOk (channel : UInt16) (c : AmqpCore μ) :
    Option (AmqpCore μ) :=
  if channel = 0 ∧ c.state = .waitingForConnectionOpenOk then
    (c.send .channelOpen 0 [.shortstr []]).map (enter .waitingForChannelOpenOk)
  else none

/-- `channel_open_ok`: declare the queue on the channel. -/
def channelOpenOk (channel : UInt16) (c : AmqpCore μ) : Option (AmqpCore μ) :=
  if c.state = .waitingForChannelOpenOk then do
    let queue ← shortstrT c.arguments
    let c ← send .queueDeclare channel
      [.short 0, queue, .bit false, .bit false, .bit false, .bit false,
        .bit false, .table ∅] { c with channel := channel }
    return enter .waitingForQueueDeclareOk c
  else none

/-- `queue_declare_ok`: no local messages, no acknowledgements. -/
def queueDeclareOk (channel : UInt16) (c : AmqpCore μ) : Option (AmqpCore μ) :=
  if channel = c.channel ∧ c.state = .waitingForQueueDeclareOk then do
    let queue ← shortstrT c.arguments
    let c ← c.send .basicConsume c.channel
      [.short 0, queue, .shortstr [], .bit true, .bit true, .bit false,
        .bit false, .table ∅]
    return enter .waitingForBasicConsumeOk c
  else none

/-- `basic_consume_ok`: messages may flow. -/
def basicConsumeOk (channel : UInt16) (c : AmqpCore μ) :
    Option (AmqpCore μ × List DecoderCall) :=
  if channel = c.channel ∧ c.state = .waitingForBasicConsumeOk then
    some
      (enter .active { c with encoder := c.encoder.flow true c.channel },
        [.flow true c.channel])
  else none

/-- `channel_close`. -/
def channelClose (channel : UInt16) (c : AmqpCore μ) :
    Option (AmqpCore μ × List DecoderCall) :=
  if channel = c.channel then c.error else none

/-- `connection_close`. -/
def connectionClose (channel : UInt16) (c : AmqpCore μ) :
    Option (AmqpCore μ × List DecoderCall) :=
  if channel = 0 then c.error else none

/-- The methods of `i_amqp`; those the client does not override assert that
they are not called. -/
def receive (call : MethodCall AmqpMethod) (c : AmqpCore μ) :
    Option (AmqpCore μ × List DecoderCall) :=
  let quiet := Option.map fun c : AmqpCore μ => (c, ([] : List DecoderCall))
  let c := c.io (.received c.connection call.method)
  match call.method, call.args with
  | .connectionStart, [.octet major, .octet minor, .table _, .longstr _,
      .longstr _] => quiet (c.connectionStart call.channel major minor)
  | .connectionTune, [.short _, .long _, .short _] =>
      quiet (c.connectionTune call.channel)
  | .connectionOpenOk, [.shortstr _] => quiet (c.connectionOpenOk call.channel)
  | .channelOpenOk, [.longstr _] => quiet (c.channelOpenOk call.channel)
  | .queueDeclareOk, [.shortstr _, .long _, .long _] =>
      quiet (c.queueDeclareOk call.channel)
  | .basicConsumeOk, [.shortstr _] => c.basicConsumeOk call.channel
  | .channelClose, [.short _, .shortstr _, .short _, .short _] =>
      c.channelClose call.channel
  | .connectionClose, [.short _, .shortstr _, .short _, .short _] =>
      c.connectionClose call.channel
  | _, _ => none

/-! ## What the callbacks do -/

variable {c c' : AmqpCore μ} {calls : List DecoderCall}

theorem dropSocket_eq_some (h : c.dropSocket = some c') :
    c' = { c.rmFd with
      fd := none
      readPos := c.readSize
      writePos := c.writebuf.length
      connection := c.connection + 1
      received := [] } := by
  obtain ⟨c₁, hclose, rfl⟩ := Option.map_eq_some_iff.mp h
  rw [close, Option.ite_none_left_eq_some] at hclose
  obtain ⟨_, hc₁⟩ := hclose
  cases hc₁
  rfl

/-- `error` is `reconnect`; it resets the codecs unless there was no
connection. -/
theorem error_cases (h : c.error = some (c', calls)) :
    ∃ env, c.unconnected = true ∧ calls = [] ∧
        reconnect { c with env := env } = some c' ∨
      c.unconnected = false ∧ calls = [.gap, .reset] ∧
        reconnect { c with encoder := c.encoder.reset, env := env } =
          some c' := by
  have hreport : ∀ {c₀ : AmqpCore μ}, c₀.report.bind reconnect = some c' →
      ∃ env, reconnect { c₀ with env := env } = some c' := by
    intro c₀ h₀
    obtain ⟨c₁, h₁, h₀⟩ := Option.bind_eq_some_iff.mp h₀
    rw [report, Option.ite_none_right_eq_some] at h₁
    cases h₁.2
    exact ⟨_, h₀⟩
  rw [error] at h
  split at h
  · next hun =>
      obtain ⟨c₁, h₁, heq⟩ := Option.map_eq_some_iff.mp h
      cases heq
      obtain ⟨env, h₁⟩ := hreport h₁
      exact ⟨env, .inl ⟨hun, rfl, h₁⟩⟩
  · next hun =>
      obtain ⟨c₁, h₁, heq⟩ := Option.map_eq_some_iff.mp h
      cases heq
      obtain ⟨env, h₁⟩ := hreport h₁
      exact ⟨env, .inr ⟨Bool.eq_false_iff.mpr hun, rfl, h₁⟩⟩

/-- The states of the handshake. -/
def Shaking (state : AmqpState) : Prop :=
  state ≠ .connecting ∧ state ≠ .waitingForReconnect ∧ state ≠ .active
  deriving Decidable

/-- The number of the channel is stored and methods of the marshaller are
called, none of which publishes. -/
inductive Sends (c : AmqpCore μ) : AmqpCore μ → Prop where
  | refl : Sends c c
  | channel {c₁ : AmqpCore μ} (channel : UInt16) (h : Sends c c₁) :
      Sends c { c₁ with channel := channel }
  | send {c₁ c₂ : AmqpCore μ} {name : AmqpMethod} {channel : UInt16}
      {values : List FieldValue} (h : Sends c c₁) (hname : name ≠ .basicPublish)
      (hsend : c₁.send name channel values = some c₂) : Sends c c₂

/-- A method is handled: the handshake goes on, or it is complete, or the
connection ends. -/
inductive Handled (c : AmqpCore μ) (method : AmqpMethod) :
    AmqpCore μ → List DecoderCall → Prop where
  | shake {c₁ : AmqpCore μ} {state : AmqpState}
      (hmethod : method ≠ .basicConsumeOk) (hfrom : Shaking c.state)
      (hsends : Sends c c₁) (hto : Shaking state) :
      Handled c method (enter state c₁) []
  | consumeOk (hmethod : method = .basicConsumeOk) :
      Handled c method
        (enter .active { c with encoder := c.encoder.flow true c.channel })
        [.flow true c.channel]
  | close {c' : AmqpCore μ} {calls : List DecoderCall}
      (hmethod : method = .connectionClose ∨ method = .channelClose)
      (herror : c.error = some (c', calls)) : Handled c method c' calls

theorem Handled.of_receive {call : MethodCall AmqpMethod}
    (h : c.receive call = some (c', calls)) :
    Handled (c.io (.received c.connection call.method)) call.method c' calls := by
  unfold receive at h
  dsimp only at h
  split at h <;> simp only [connectionStart, connectionTune, connectionOpenOk,
    channelOpenOk, queueDeclareOk, basicConsumeOk, channelClose,
    connectionClose, Option.map_eq_some_iff, Option.ite_none_right_eq_some,
    Option.bind_eq_bind, Option.bind_eq_some_iff, Option.pure_def,
    Option.some.injEq, Prod.mk.injEq, reduceCtorEq] at h
  · next hmethod _ =>
      obtain ⟨_, ⟨⟨_, hstate, _⟩, c₁, hsend, rfl⟩, rfl, rfl⟩ := h
      exact .shake (by simp [hmethod]) (by rw [hstate]; decide)
        (.send .refl (by decide) hsend) (by decide)
  · next hmethod _ =>
      obtain ⟨_, ⟨⟨_, hstate⟩, c₁, hsend, c₂, hsend', rfl⟩, rfl, rfl⟩ := h
      exact .shake (by simp [hmethod]) (by rw [hstate]; decide)
        (.send (.send .refl (by decide) hsend) (by decide) hsend') (by decide)
  · next hmethod _ =>
      obtain ⟨_, ⟨⟨_, hstate⟩, c₁, hsend, rfl⟩, rfl, rfl⟩ := h
      exact .shake (by simp [hmethod]) (by rw [hstate]; decide)
        (.send .refl (by decide) hsend) (by decide)
  · next hmethod _ =>
      obtain ⟨_, ⟨hstate, queue, _, c₁, hsend, rfl⟩, rfl, rfl⟩ := h
      exact .shake (by simp [hmethod]) (by rw [hstate]; decide)
        (.send (.channel _ .refl) (by decide) hsend) (by decide)
  · next hmethod _ =>
      obtain ⟨_, ⟨⟨_, hstate⟩, queue, _, c₁, hsend, rfl⟩, rfl, rfl⟩ := h
      exact .shake (by simp [hmethod]) (by rw [hstate]; decide)
        (.send .refl (by decide) hsend) (by decide)
  · next hmethod _ =>
      obtain ⟨_, rfl, rfl⟩ := h
      exact .consumeOk hmethod
  · next hmethod _ => exact .close (.inr hmethod) h.2
  · next hmethod _ => exact .close (.inl hmethod) h.2

end AmqpCore

/-- The client is the callback of its unmarshaller. -/
instance {μ : Type} : AmqpUnmarshaller (AmqpCore μ) where
  write c cmd :=
    (unmarshal amqpClasses cmd).bind fun call =>
      match call with
      | none => some (c, [])
      | some call => c.receive call

/-- `amqp_client_t`: the decoder, with the other members as its callback. -/
abbrev AmqpClient (δ μ : Type) := AmqpDecoder δ (AmqpCore μ)

/-- The events and commands a client handles.  The commands carry the mux or
the demux they leave behind when they are not ignored, `sendTo` also whether the
demux had no pipes; `pipes` is any other change to these. -/
inductive AmqpAct (δ μ : Type) where
  | register (handle : Nat)
  | inEvent (env : AmqpEnv)
  | outEvent (env : AmqpEnv)
  | timer (env : AmqpEnv)
  | head (demux : δ) (env : AmqpEnv)
  | revive (mux : μ) (env : AmqpEnv)
  | sendTo (noPipes : Bool) (demux : δ)
  | receiveFrom (mux : μ)
  | pipes (mux : μ) (demux : δ)

namespace AmqpClient

variable {δ μ : Type} [IDemux δ] [Mux μ]

/-- The members other than the decoder. -/
def core (c : AmqpClient δ μ) : AmqpCore μ := c.derived.callback

def withCore (core : AmqpCore μ) (c : AmqpClient δ μ) : AmqpClient δ μ :=
  { c with derived := { c.derived with callback := core } }

def mapCore (f : AmqpCore μ → AmqpCore μ) (c : AmqpClient δ μ) :
    AmqpClient δ μ :=
  c.withCore (f c.core)

def mapDemux (f : δ → δ) (c : AmqpClient δ μ) : AmqpClient δ μ :=
  { c with derived := { c.derived with demux := f c.derived.demux } }

def setMux (mux : μ) (c : AmqpClient δ μ) : AmqpClient δ μ :=
  c.mapCore fun core =>
    { core with
      encoder :=
        { core.encoder with derived := { core.encoder.derived with mux := mux } } }

/-- The answers to the handler that is being called. -/
def answer (env : AmqpEnv) (c : AmqpClient δ μ) : AmqpClient δ μ :=
  c.mapCore fun core => { core with env := env }

/-- A failed assertion. -/
def abort (c : AmqpClient δ μ) : AmqpClient δ μ :=
  { c with derived := { c.derived with failed := true } }

/-- An assertion has failed, in the client, its decoder or its encoder. -/
def aborted (c : AmqpClient δ μ) : Bool :=
  c.derived.failed || c.core.encoder.derived.failed

/-- The constructor; `fd` is the socket, retired when the first attempt to
connect has failed at once.  `channel` and `handle` are not initialised. -/
def create (writebufSize readbufSize : Nat) (mux : μ) (demux : δ)
    (arguments : List UInt8) (fd : Option Nat) (channel : UInt16)
    (handle : Nat) : AmqpClient δ μ :=
  AmqpDecoder.create demux
    { state := .connecting, channel := channel,
      encoder := AmqpEncoder.create mux arguments,
      writebufSize := writebufSize, writebuf := [], writePos := 0,
      readbufSize := readbufSize, readbuf := [], readSize := 0, readPos := 0,
      arguments := arguments, fd := fd, handle := handle, polled := false,
      registered := none, timers := 0, env := ⟨none, none, false, [], []⟩,
      connection := 0, source := 0, received := [], log := [] }

/-! ## Events -/

/-- A call of the decoder from outside. -/
def decoderCall (c : AmqpClient δ μ) : DecoderCall → AmqpClient δ μ
  | .flow flowOn channel => AmqpDecoder.flow c flowOn channel
  | .gap => c.mapDemux IDemux.gap
  | .reset => AmqpDecoder.reset c

omit [Mux μ] in
@[simp] theorem core_decoderCall (c : AmqpClient δ μ) (call : DecoderCall) :
    (c.decoderCall call).core = c.core := by
  cases call with
  | flow flowOn channel => rfl
  | gap => rfl
  | reset =>
      simp only [decoderCall, AmqpDecoder.reset, core]
      split <;> rfl

/-- What the other members have become, and what they do to the decoder. -/
def apply (c : AmqpClient δ μ) :
    Option (AmqpCore μ × List DecoderCall) → AmqpClient δ μ
  | none => c.abort
  | some (core, calls) => calls.foldl decoderCall (c.withCore core)

/-- `error`, called by an event handler. -/
def error (c : AmqpClient δ μ) : AmqpClient δ μ := c.apply c.core.error

/-- `register_event`.  The poller cannot add a socket that is closed. -/
def registerEvent (handle : Nat) (c : AmqpClient δ μ) : AmqpClient δ μ :=
  if c.core.state = .connecting ∧ c.core.fd ≠ none then
    c.mapCore fun core => AmqpCore.addFd { core with polled := true } handle
  else c.abort

/-- If processing was stuck and became unstuck start polling for input; if it
was unstuck and became stuck, stop. -/
def repoll (stuck : Bool) (core : AmqpCore μ) : AmqpCore μ :=
  if stuck then
    if core.readPos = core.readSize then core.pollerOp .setPollin else core
  else if core.readPos < core.readSize then core.pollerOp .resetPollin
  else core

/-- `write` has returned: the bytes it has processed are added to what
`read_pos` is now. -/
def processed (stuck : Bool) (data : List UInt8) (before nbytes : Nat)
    (core : AmqpCore μ) : AmqpCore μ :=
  repoll stuck
    { core.io (.decode data core.source before core.connection) with
      readPos := core.readPos + nbytes }

/-- The second part of `in_event`: pass the unprocessed bytes to the decoder.
`stuck` says that some were left by an earlier call. -/
def decode (stuck : Bool) (c : AmqpClient δ μ) : AmqpClient δ μ :=
  if c.core.readPos < c.core.readSize then
    let data := c.core.readbuf.drop c.core.readPos.toNat
    let r : AmqpClient δ μ × Nat := AmqpDecoder.write c data
    if r.1.aborted then r.1
    else
      let c' := r.1.mapCore (processed stuck data c.core.connection r.2)
      if 0 < r.2 then c'.mapDemux IDemux.flush else c'
  else c

/-- `socket.read (readbuf, readbuf_size)` and what follows it. -/
def receive (c : AmqpClient δ μ) : AmqpClient δ μ :=
  if c.core.fd = none then c.abort
  else
    match c.core.env.read with
    | none =>
        error (c.mapCore fun core =>
          { core.io (.read core.connection none) with
            readSize := -1
            readPos := 0 })
    | some bytes =>
        let bytes := bytes.take c.core.readbufSize
        decode false (c.mapCore fun core =>
          { core.io (.read core.connection (some bytes)) with
            readbuf := bytes
            readSize := bytes.length
            readPos := 0
            source := core.connection
            received := core.received ++ [bytes] })

/-- `in_event`. -/
def inEvent (c : AmqpClient δ μ) : AmqpClient δ μ :=
  if c.core.state = .connecting then
    if c.core.env.socketError then c.error else c.abort
  else if c.core.readPos = c.core.readSize then c.receive
  else c.decode (decide (c.core.readPos < c.core.readSize))

/-- The connection is established; the protocol header is to be sent. -/
def connected (c : AmqpClient δ μ) : AmqpClient δ μ :=
  c.mapCore fun core =>
    { core.pollerOp .setPollin with state := .waitingForConnectionStart }

/-- If the write buffer is empty, try to read new data from the encoder. -/
def fill (c : AmqpClient δ μ) : AmqpClient δ μ :=
  if c.core.writePos = c.core.writebuf.length then
    c.mapCore fun core =>
      let r := core.encoder.read core.writebufSize
      let core := { core with encoder := r.1, writebuf := r.2.1, writePos := 0 }
      if r.2.1 = [] then core.pollerOp .resetPollout else core
  else c

/-- Write as much as possible of the write buffer to the socket. -/
def send (c : AmqpClient δ μ) : AmqpClient δ μ :=
  if c.core.writePos < c.core.writebuf.length then
    if c.core.fd = none then c.abort
    else
      let data := c.core.writebuf.drop c.core.writePos
      match c.core.env.write with
      | none =>
          error (c.mapCore fun core =>
            core.io (.write core.connection data none))
      | some n =>
          let nbytes := min n data.length
          c.mapCore fun core =>
            { core.io (.write core.connection data (some nbytes)) with
              writePos := core.writePos + nbytes }
  else c

/-- `out_event`. -/
def outEvent (c : AmqpClient δ μ) : AmqpClient δ μ :=
  if c.core.state = .connecting then
    if c.core.env.socketError then c.error else c.connected
  else if c.fill.aborted then c.fill
  else c.fill.send

/-- `timer_event`. -/
def timerEvent (c : AmqpClient δ μ) : AmqpClient δ μ :=
  if c.core.state = .waitingForReconnect then
    c.apply (c.core.reconnect.map fun core => (core, []))
  else c.abort

/-! ## Commands -/

/-- The client looks at a command about one of its pipes. -/
def Attentive (c : AmqpClient δ μ) : Prop :=
  c.core.state ≠ .connecting ∧ c.core.state ≠ .shuttingDown
  deriving Decidable

/-- `revive`. -/
def revive (mux : μ) (c : AmqpClient δ μ) : AmqpClient δ μ :=
  if c.Attentive then
    let c := c.setMux mux
    if c.core.writebuf.length = 0 then
      (c.mapCore fun core => core.pollerOp .setPollout).outEvent
    else c
  else c

/-- `head`. -/
def head (demux : δ) (c : AmqpClient δ μ) : AmqpClient δ μ :=
  if c.Attentive then (c.mapDemux fun _ => demux).inEvent else c

/-- `send_to`. -/
def sendTo (noPipes : Bool) (demux : δ) (c : AmqpClient δ μ) :
    AmqpClient δ μ :=
  let c :=
    if c.core.state ≠ .shuttingDown ∧ noPipes = true then
      c.mapCore fun core => core.pollerOp .setPollin
    else c
  c.mapDemux fun _ => demux

/-- `receive_from`; `mux` has the new pipe in it, with its reader terminated at
once when the client is shutting down. -/
def receiveFrom (mux : μ) (c : AmqpClient δ μ) : AmqpClient δ μ :=
  let c := c.setMux mux
  if c.Attentive then c.mapCore fun core => core.pollerOp .setPollout else c

/-- One event or command.  The client is registered once and first; the poller
raises events for a registered handle and a pending timer only. -/
def step (c : AmqpClient δ μ) (act : AmqpAct δ μ) : Option (AmqpClient δ μ) :=
  if c.aborted then none
  else
    match act with
    | .register handle =>
        if c.core.polled then none else some (c.registerEvent handle)
    | .inEvent env =>
        if c.core.registered = none then none else some (c.answer env).inEvent
    | .outEvent env =>
        if c.core.registered = none then none else some (c.answer env).outEvent
    | .timer env =>
        if c.core.timers = 0 then none
        else
          some (timerEvent (mapCore
            (fun core => { core with timers := core.timers - 1 })
            (c.answer env)))
    | .head demux env =>
        if c.core.polled then some ((c.answer env).head demux) else none
    | .revive mux env =>
        if c.core.polled then some ((c.answer env).revive mux) else none
    | .sendTo noPipes demux =>
        if c.core.polled then some (c.sendTo noPipes demux) else none
    | .receiveFrom mux =>
        if c.core.polled then some (c.receiveFrom mux) else none
    | .pipes mux demux => some ((c.setMux mux).mapDemux fun _ => demux)

/-- The same, with what the caller of the handler has seen to. -/
inductive Step (c : AmqpClient δ μ) :
    AmqpAct δ μ → AmqpClient δ μ → Prop where
  | register {handle : Nat} (hp : c.core.polled = false) :
      Step c (.register handle) (c.registerEvent handle)
  | inEvent {env : AmqpEnv} (hreg : c.core.registered ≠ none) :
      Step c (.inEvent env) (c.answer env).inEvent
  | outEvent {env : AmqpEnv} (hreg : c.core.registered ≠ none) :
      Step c (.outEvent env) (c.answer env).outEvent
  | timer {env : AmqpEnv} (ht : c.core.timers ≠ 0) :
      Step c (.timer env)
        (timerEvent (mapCore
          (fun core => { core with timers := core.timers - 1 })
          (c.answer env)))
  | head {demux : δ} {env : AmqpEnv} (hp : c.core.polled = true) :
      Step c (.head demux env) ((c.answer env).head demux)
  | revive {mux : μ} {env : AmqpEnv} (hp : c.core.polled = true) :
      Step c (.revive mux env) ((c.answer env).revive mux)
  | sendTo {noPipes : Bool} {demux : δ} (hp : c.core.polled = true) :
      Step c (.sendTo noPipes demux) (c.sendTo noPipes demux)
  | receiveFrom {mux : μ} (hp : c.core.polled = true) :
      Step c (.receiveFrom mux) (c.receiveFrom mux)
  | pipes {mux : μ} {demux : δ} :
      Step c (.pipes mux demux) ((c.setMux mux).mapDemux fun _ => demux)

theorem Step.of_step {c c' : AmqpClient δ μ} {act : AmqpAct δ μ}
    (h : step c act = some c') : c.aborted = false ∧ Step c act c' := by
  unfold AmqpClient.step at h
  split at h
  · cases h
  · next hab =>
      refine ⟨by simpa using hab, ?_⟩
      cases act with
      | register handle =>
          obtain ⟨hp, hc⟩ := Option.ite_none_left_eq_some.mp h
          cases hc
          exact .register (by simpa using hp)
      | inEvent env | outEvent env | timer env =>
          obtain ⟨hready, hc⟩ := Option.ite_none_left_eq_some.mp h
          cases hc
          constructor
          exact hready
      | head demux env | revive mux env | sendTo noPipes demux
      | receiveFrom mux =>
          obtain ⟨hp, hc⟩ := Option.ite_none_right_eq_some.mp h
          cases hc
          constructor
          exact hp
      | pipes mux demux =>
          cases h
          exact .pipes

end AmqpClient

/-! ## A broker -/

/-- What a client sees of a broker it can connect to: reads give `bytes`, a
write takes up to 200 bytes, and reconnections succeed. -/
def brokerEnv (bytes : Option (List UInt8)) : AmqpEnv :=
  ⟨bytes, some 200, false, [], [some (4, 8)]⟩

/-- `connection.start`, for version 0-9. -/
def startCommand : AmqpCommand :=
  { channel := 0, classId := connectionId, methodId := 10,
    args := [0, 9] ++ putUint32 0 ++ putUint32 0 }

/-- What a broker sends until messages may flow on channel 1. -/
def handshake : List AmqpCommand :=
  [startCommand,
    { channel := 0, classId := connectionId, methodId := 30,
      args := putUint16 0 ++ putUint32 4096 ++ putUint16 0 },
    { channel := 0, classId := connectionId, methodId := 41, args := [0] },
    { channel := 1, classId := channelId, methodId := 11,
      args := putUint32 0 },
    { channel := 1, classId := queueId, methodId := 11,
      args := [0] ++ putUint32 0 ++ putUint32 0 },
    { channel := 1, classId := basicId, methodId := 21, args := [0] }]

end ZeroMQ
