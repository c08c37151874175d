import ZeroMQ.Codec.Bp
import ZeroMQ.Lib.Run

/-!
# `bp_tcp_engine_t`

The engine of `libzmq/bp_tcp_engine.cpp` moves messages between its pipes and a
TCP connection.  It lives in an I/O thread: the poller calls its event handlers
and other threads send it commands.  A handler runs to its end before the next
one starts, so a run of the engine is a sequence of whole handlers.

Everything the handlers ask of their surroundings is a part of the label of the
step: what the socket calls return (`EngineEnv`), and how a command changes the
pipes behind the mux and the demux.  The calls the engine makes to the socket
and to the poller are recorded, each with the circumstances it was made in
(`Io`).

A failed assertion stops the process; the engine is then `aborted`.

## Main definitions

* `BpTcpEngine` — the members of the engine, and the poller's view of it.
* `BpTcpEngine.error`, `reconnect`, `shutdown`, `inEvent`, `outEvent`,
  `timerEvent`, `revive`, `head`, `sendTo`, `receiveFrom` — the handlers.
* `BpTcpEngine.step` — the handlers, where the poller and the other threads may
  call them.
-/

namespace ZeroMQ

/-- `engine_state_t`. -/
inductive EngineState where
  | connecting
  | connected
  | waitingForReconnect
  | shuttingDown
  deriving DecidableEq, Repr

/-- The operations of `i_poller` on a handle. -/
inductive PollerOp where
  | rmFd
  | setPollin
  | resetPollin
  | setPollout
  | resetPollout
  deriving DecidableEq, Repr

/-- Who has called `in_event`: the poller, or the handler of `head`. -/
inductive Origin where
  | poller
  | head
  deriving DecidableEq, Repr

/-- The calls of an engine: `read` and `write` with the state and the file
descriptor they are made in (`none` is `retired_fd`) and their result (`none`
is -1), poller operations with their handle and the one registered, and the
assertion on `socket_error` in `in_event`. -/
inductive Io where
  | read (state : EngineState) (fd : Option Nat) (result : Option (List UInt8))
  | write (state : EngineState) (fd : Option Nat) (data : List UInt8)
      (result : Option Nat)
  | poller (op : PollerOp) (handle : Nat) (registered : Option Nat)
  | assertSocketError (origin : Origin)
  deriving DecidableEq, Repr

/-- What the surroundings answer during one handler: the results of the socket
calls, the handle the poller gives out, and whether the application's error
handler lets the engine continue. -/
structure EngineEnv where
  read : Option (List UInt8)
  write : Option Nat
  socketError : Bool
  reopen : Option Nat
  handle : Nat
  handlerOk : Bool
  deriving DecidableEq, Repr

/-- The members of `bp_tcp_engine_t`, with `writebuf` and `readbuf` holding the
bytes in use; then what the poller knows: whether it has been given the engine
(`polled`), the handle registered and the timers pending; then the history of
the calls made and whether an assertion has failed. -/
structure BpTcpEngine (μ δ : Type) where
  writebufSize : Nat
  writebuf : List UInt8
  writePos : Nat
  readbufSize : Nat
  readbuf : List UInt8
  readSize : Int
  readPos : Int
  encoder : BpEncoder μ
  decoder : BpDecoder δ
  pipeCnt : Nat
  reconnectFlag : Bool
  state : EngineState
  fd : Option Nat
  handle : Nat
  polled : Bool
  registered : Option Nat
  timers : Nat
  log : List Io
  aborted : Bool

/-- The events and commands an engine handles.  The commands carry the mux or
the demux they leave behind; `pipes` is any other change to these, such as
messages that arrive in the pipes. -/
inductive EngineAct (μ δ : Type) where
  | register (env : EngineEnv)
  | inEvent (env : EngineEnv)
  | outEvent (env : EngineEnv)
  | timer (env : EngineEnv)
  | head (demux : δ) (env : EngineEnv)
  | revive (mux : μ) (env : EngineEnv)
  | sendTo (demux : δ)
  | receiveFrom (mux : μ)
  | pipes (mux : μ) (demux : δ)

namespace BpTcpEngine

variable {μ δ : Type} [Mux μ] [IDemux δ]

/-- An engine before its registration, with a socket that has `fd`. -/
def create (writebufSize readbufSize : Nat) (mux : μ) (demux : δ)
    (reconnectFlag : Bool) (state : EngineState) (fd : Option Nat)
    (handle : Nat) : BpTcpEngine μ δ :=
  { writebufSize := writebufSize, writebuf := [], writePos := 0,
    readbufSize := readbufSize, readbuf := [], readSize := 0, readPos := 0,
    encoder := BpEncoder.create mux, decoder := BpDecoder.create demux,
    pipeCnt := 0, reconnectFlag := reconnectFlag, state := state, fd := fd,
    handle := handle, polled := false, registered := none, timers := 0,
    log := [], aborted := false }

/-- The constructor that connects to a host: `fd` is retired when the first
attempt has failed at once.  `handle` is not initialised. -/
def connecter (writebufSize readbufSize : Nat) (mux : μ) (demux : δ)
    (fd : Option Nat) (handle : Nat) : BpTcpEngine μ δ :=
  create writebufSize readbufSize mux demux true .connecting fd handle

/-- The constructor for a connection that was accepted. -/
def accepted (writebufSize readbufSize : Nat) (mux : μ) (demux : δ) (fd : Nat)
    (handle : Nat) : BpTcpEngine μ δ :=
  create writebufSize readbufSize mux demux false .connected (some fd) handle

/-! ## Calls to the surroundings -/

/-- Record a call. -/
def io (e : BpTcpEngine μ δ) (call : Io) : BpTcpEngine μ δ :=
  { e with log := e.log ++ [call] }

/-- A poller operation on the engine's handle. -/
def pollerOp (e : BpTcpEngine μ δ) (op : PollerOp) : BpTcpEngine μ δ :=
  e.io (.poller op e.handle e.registered)

/-- `rm_fd`. -/
def rmFd (e : BpTcpEngine μ δ) : BpTcpEngine μ δ :=
  { e.pollerOp .rmFd with
    registered := if e.registered = some e.handle then none else e.registered }

/-- `handle = poller->add_fd (...)`. -/
def addFd (e : BpTcpEngine μ δ) (handle : Nat) : BpTcpEngine μ δ :=
  { e with handle := handle, registered := some handle }

/-- `add_timer`. -/
def addTimer (e : BpTcpEngine μ δ) : BpTcpEngine μ δ :=
  { e with timers := e.timers + 1 }

/-- A failed assertion. -/
def abort (e : BpTcpEngine μ δ) : BpTcpEngine μ δ := { e with aborted := true }

/-- `tcp_socket_t::close`, which asserts that there is a socket. -/
def close (e : BpTcpEngine μ δ) : BpTcpEngine μ δ :=
  if e.fd = none then e.abort else { e with fd := none }

def mapMux (f : μ → μ) (e : BpTcpEngine μ δ) : BpTcpEngine μ δ :=
  { e with
    encoder :=
      { e.encoder with
        derived := { e.encoder.derived with mux := f e.encoder.derived.mux } } }

def mapDemux (f : δ → δ) (e : BpTcpEngine μ δ) : BpTcpEngine μ δ :=
  { e with
    decoder :=
      { e.decoder with
        derived :=
          { e.decoder.derived with demux := f e.decoder.derived.demux } } }

/-! ## The connection -/

/-- Stop polling, close the socket and clear the buffers. -/
def dropSocket (e : BpTcpEngine μ δ) : BpTcpEngine μ δ :=
  let e := e.rmFd.close
  { e with readPos := e.readSize, writePos := e.writebuf.length }

/-- Wait a while before the next attempt. -/
def waitForReconnect (e : BpTcpEngine μ δ) : BpTcpEngine μ δ :=
  { e.addTimer with state := .waitingForReconnect }

/-- `socket.reopen ()`, which asserts that there is no socket, and the rest of
`reconnect`. -/
def reopen (env : EngineEnv) (e : BpTcpEngine μ δ) : BpTcpEngine μ δ :=
  if e.fd = none then
    match env.reopen with
    | none => e.waitForReconnect
    | some fd =>
        { (addFd { e with fd := some fd } env.handle).pollerOp .setPollout with
          state := .connecting }
  else e.abort

/-- `reconnect`. -/
def reconnect (env : EngineEnv) (e : BpTcpEngine μ δ) : BpTcpEngine μ δ :=
  if e.state = .connected ∨ e.state = .connecting then
    let e' := e.dropSocket
    if e'.aborted then e'
    else if e.state = .connecting then e'.waitForReconnect
    else e'.reopen env
  else e.reopen env

/-- `shutdown`. -/
def shutdown (e : BpTcpEngine μ δ) : BpTcpEngine μ δ :=
  let e := e.rmFd.close
  if e.aborted then e
  else
    { (e.mapDemux IDemux.initialiseShutdown).mapMux Mux.initialiseShutdown with
      state := .shuttingDown }

/-- The first part of `error`: a gap notification, and a clean start for the
codecs. -/
def discard (e : BpTcpEngine μ δ) : BpTcpEngine μ δ :=
  if e.state = .connected then
    let e := e.mapDemux IDemux.gap
    { e with encoder := e.encoder.reset, decoder := e.decoder.reset }
  else e

/-- `error`. -/
def error (env : EngineEnv) (e : BpTcpEngine μ δ) : BpTcpEngine μ δ :=
  let e := e.discard
  if env.handlerOk = false then e.abort
  else if e.reconnectFlag then e.reconnect env
  else e.shutdown

/-! ## Events -/

/-- `register_event`. -/
def registerEvent (env : EngineEnv) (e : BpTcpEngine μ δ) : BpTcpEngine μ δ :=
  let e := { e with polled := true }
  if e.fd = none then e.waitForReconnect
  else
    let e := e.addFd env.handle
    if e.state = .connecting then e.pollerOp .setPollout
    else if 0 < e.pipeCnt then e.pollerOp .setPollin
    else e

/-- If processing was stuck and became unstuck start polling for input; if it
was unstuck and became stuck, stop. -/
def repoll (stuck : Bool) (e : BpTcpEngine μ δ) : BpTcpEngine μ δ :=
  if stuck then
    if e.readPos = e.readSize then e.pollerOp .setPollin else e
  else if e.readPos < e.readSize then e.pollerOp .resetPollin
  else e

/-- The second part of `in_event`: pass the unprocessed bytes to the decoder.
`stuck` says that some were left by an earlier call. -/
def decode (stuck : Bool) (e : BpTcpEngine μ δ) : BpTcpEngine μ δ :=
  if e.readPos < e.readSize then
    let r := e.decoder.write (e.readbuf.drop e.readPos.toNat)
    let e := repoll stuck { e with decoder := r.1, readPos := e.readPos + r.2 }
    if 0 < r.2 then e.mapDemux IDemux.flush else e
  else e

/-- `socket.read (readbuf, readbuf_size)` and what follows it. -/
def receive (env : EngineEnv) (e : BpTcpEngine μ δ) : BpTcpEngine μ δ :=
  match env.read with
  | none =>
      error env
        { e.io (.read e.state e.fd none) with readSize := -1, readPos := 0 }
  | some bytes =>
      let bytes := bytes.take e.readbufSize
      decode false
        { e.io (.read e.state e.fd (some bytes)) with
          readbuf := bytes, readSize := bytes.length, readPos := 0 }

/-- `in_event`. -/
def inEvent (origin : Origin) (env : EngineEnv) (e : BpTcpEngine μ δ) :
    BpTcpEngine μ δ :=
  if e.state = .connecting then
    let e := e.io (.assertSocketError origin)
    if env.socketError then e.error env else e.abort
  else if e.readPos = e.readSize then e.receive env
  else e.decode (decide (e.readPos < e.readSize))

/-- The connection is established. -/
def connected (e : BpTcpEngine μ δ) : BpTcpEngine μ δ :=
  let e :=
    if Mux.empty e.encoder.derived.mux then e.pollerOp .resetPollout else e
  let e := if 0 < e.pipeCnt then e.pollerOp .setPollin else e
  { e with state := .connected }

/-- If the write buffer is empty, try to read new data from the encoder. -/
def fill (e : BpTcpEngine μ δ) : BpTcpEngine μ δ :=
  if e.writePos = e.writebuf.length then
    let r := e.encoder.read e.writebufSize
    let e := { e with encoder := r.1, writebuf := r.2.1, writePos := 0 }
    if r.2.1 = [] then e.pollerOp .resetPollout else e
  else e

/-- Write as much as possible of the write buffer to the socket. -/
def send (env : EngineEnv) (e : BpTcpEngine μ δ) : BpTcpEngine μ δ :=
  if e.writePos < e.writebuf.length then
    let data := e.writebuf.drop e.writePos
    match env.write with
    | none => error env (e.io (.write e.state e.fd data none))
    | some n =>
        let nbytes := min n data.length
        { e.io (.write e.state e.fd data (some nbytes)) with
          writePos := e.writePos + nbytes }
  else e

/-- `out_event`. -/
def outEvent (env : EngineEnv) (e : BpTcpEngine μ δ) : BpTcpEngine μ δ :=
  if e.state = .connecting then
    if env.socketError then e.error env else e.connected
  else e.fill.send env

/-- `timer_event`. -/
def timerEvent (env : EngineEnv) (e : BpTcpEngine μ δ) : BpTcpEngine μ δ :=
  if e.state = .waitingForReconnect then e.reconnect env else e.abort

/-! ## Commands -/

/-- `revive`. -/
def revive (mux : μ) (env : EngineEnv) (e : BpTcpEngine μ δ) :
    BpTcpEngine μ δ :=
  let e := e.mapMux fun _ => mux
  if e.state = .connected ∧ e.writebuf.length = 0 then
    (e.pollerOp .setPollout).outEvent env
  else e

/-- `head`. -/
def head (demux : δ) (env : EngineEnv) (e : BpTcpEngine μ δ) :
    BpTcpEngine μ δ :=
  (e.mapDemux fun _ => demux).inEvent .head env

/-- `send_to`. -/
def sendTo (demux : δ) (e : BpTcpEngine μ δ) : BpTcpEngine μ δ :=
  let e := { e with pipeCnt := e.pipeCnt + 1 }
  let e :=
    if e.state = .connected ∧ e.pipeCnt = 1 then e.pollerOp .setPollin else e
  e.mapDemux fun _ => demux

/-- `receive_from`; `mux` has the new pipe in it, shut down at once when the
engine is shutting down. -/
def receiveFrom (mux : μ) (e : BpTcpEngine μ δ) : BpTcpEngine μ δ :=
  let e := e.mapMux fun _ => mux
  let e := { e with pipeCnt := e.pipeCnt + 1 }
  if e.state = .connected then
    let e := e.pollerOp .setPollout
    if e.pipeCnt = 1 then e.pollerOp .setPollin else e
  else e

/-- One event or command.  The engine is registered once and first; the poller
raises events for a registered handle and a pending timer only. -/
def step (e : BpTcpEngine μ δ) (act : EngineAct μ δ) :
    Option (BpTcpEngine μ δ) :=
  if e.aborted then none
  else
    match act with
    | .register env => if e.polled then none else some (e.registerEvent env)
    | .inEvent env =>
        if e.registered = none then none else some (e.inEvent .poller env)
    | .outEvent env =>
        if e.registered = none then none else some (e.outEvent env)
    | .timer env =>
        if e.timers = 0 then none
        else some (timerEvent env { e with timers := e.timers - 1 })
    | .head demux env => if e.polled then some (e.head demux env) else none
    | .revive mux env => if e.polled then some (e.revive mux env) else none
    | .sendTo demux => if e.polled then some (e.sendTo demux) else none
    | .receiveFrom mux => if e.polled then some (e.receiveFrom mux) else none
    | .pipes mux demux =>
        some ((e.mapMux fun _ => mux).mapDemux fun _ => demux)

/-- The same, with what the caller of the handler has seen to. -/
inductive Step (e : BpTcpEngine μ δ) :
    EngineAct μ δ → BpTcpEngine μ δ → Prop where
  | register {env : EngineEnv} (hp : e.polled = false) :
      Step e (.register env) (e.registerEvent env)
  | inEvent {env : EngineEnv} (hreg : e.registered ≠ none) :
      Step e (.inEvent env) (e.inEvent .poller env)
  | outEvent {env : EngineEnv} (hreg : e.registered ≠ none) :
      Step e (.outEvent env) (e.outEvent env)
  | timer {env : EngineEnv} (ht : e.timers ≠ 0) :
      Step e (.timer env) (timerEvent env { e with timers := e.timers - 1 })
  | head {demux : δ} {env : EngineEnv} (hp : e.polled = true) :
      Step e (.head demux env) (e.head demux env)
  | revive {mux : μ} {env : EngineEnv} (hp : e.polled = true) :
      Step e (.revive mux env) (e.revive mux env)
  | sendTo {demux : δ} (hp : e.polled = true) :
      Step e (.sendTo demux) (e.sendTo demux)
  | receiveFrom {mux : μ} (hp : e.polled = true) :
      Step e (.receiveFrom mux) (e.receiveFrom mux)
  | pipes {mux : μ} {demux : δ} :
      Step e (.pipes mux demux) ((e.mapMux fun _ => mux).mapDemux fun _ => demux)

theorem Step.of_step {e e' : BpTcpEngine μ δ} {act : EngineAct μ δ}
    (h : step e act = some e') : e.aborted = false ∧ Step e act e' := by
  unfold BpTcpEngine.step at h
  split at h
  · cases h
  · next hab =>
      refine ⟨by simpa using hab, ?_⟩
      cases act with
      | register env =>
          obtain ⟨hp, he⟩ := Option.ite_none_left_eq_some.mp h
          cases he
          exact .register (by simpa using hp)
      | inEvent env | outEvent env | timer env =>
          obtain ⟨hready, he⟩ := Option.ite_none_left_eq_some.mp h
          cases he
          constructor
          exact hready
      | head demux env | revive mux env | sendTo demux
      | receiveFrom mux =>
          obtain ⟨hp, he⟩ := Option.ite_none_right_eq_some.mp h
          cases he
          constructor
          exact hp
      | pipes mux demux =>
          cases h
          exact .pipes

/-! ## What the handlers keep -/

/-- `Aside e e'`: calls have been made, and members have been assigned that are
neither a codec nor the state nor the number of pipes. -/
structure Aside (e e' : BpTcpEngine μ δ) : Prop where
  encoder : e'.encoder = e.encoder
  decoder : e'.decoder = e.decoder
  state : e'.state = e.state
  pipeCnt : e'.pipeCnt = e.pipeCnt
  log : e.log <+: e'.log

section Aside

omit [Mux μ] [IDemux δ]

variable {e e' : BpTcpEngine μ δ}

/-- Assignments without a call. -/
theorem Aside.of_eq (encoder : e'.encoder = e.encoder)
    (decoder : e'.decoder = e.decoder) (state : e'.state = e.state)
    (pipeCnt : e'.pipeCnt = e.pipeCnt) (log : e'.log = e.log) : Aside e e' :=
  ⟨encoder, decoder, state, pipeCnt, log ▸ List.prefix_refl _⟩

theorem Aside.io (e : BpTcpEngine μ δ) (call : Io) : Aside e (e.io call) :=
  ⟨rfl, rfl, rfl, rfl, List.prefix_append _ _⟩

theorem Aside.pollerOp (e : BpTcpEngine μ δ) (op : PollerOp) :
    Aside e (e.pollerOp op) :=
  .io e _

theorem Aside.rmFd_close (e : BpTcpEngine μ δ) : Aside e e.rmFd.close := by
  unfold close
  split
  · exact ⟨rfl, rfl, rfl, rfl, List.prefix_append _ _⟩
  · exact ⟨rfl, rfl, rfl, rfl, List.prefix_append _ _⟩

theorem Aside.dropSocket (e : BpTcpEngine μ δ) : Aside e e.dropSocket :=
  have h := Aside.rmFd_close e
  ⟨h.encoder, h.decoder, h.state, h.pipeCnt, h.log⟩

theorem Aside.repoll (e : BpTcpEngine μ δ) (stuck : Bool) :
    Aside e (e.repoll stuck) := by
  unfold BpTcpEngine.repoll
  split <;> split
  · exact .pollerOp e _
  · exact .of_eq rfl rfl rfl rfl rfl
  · exact .pollerOp e _
  · exact .of_eq rfl rfl rfl rfl rfl

end Aside

/-- `P` survives whatever a handler does. -/
structure Kept (P : BpTcpEngine μ δ → Prop) : Prop where
  aside : ∀ {e e'}, P e → Aside e e' → P e'
  state : ∀ {e} (state : EngineState), P e → state ≠ .shuttingDown →
    P { e with state := state }
  encode : ∀ {e}, P e → P { e with encoder := (e.encoder.read e.writebufSize).1 }
  decode : ∀ {e} data, P e → P { e with decoder := (e.decoder.write data).1 }
  flush : ∀ {e}, P e → P (e.mapDemux IDemux.flush)
  discard : ∀ {e}, P e → P e.discard
  shut : ∀ {e}, P e →
    P { (e.mapDemux IDemux.initialiseShutdown).mapMux Mux.initialiseShutdown with
      state := .shuttingDown }

namespace Kept

variable {P : BpTcpEngine μ δ → Prop} {e : BpTcpEngine μ δ}

/-- An assignment to the other members. -/
theorem assign (hP : Kept P) {e' : BpTcpEngine μ δ} (h : P e)
    (encoder : e'.encoder = e.encoder) (decoder : e'.decoder = e.decoder)
    (state : e'.state = e.state) (pipeCnt : e'.pipeCnt = e.pipeCnt)
    (log : e'.log = e.log) : P e' :=
  hP.aside h (.of_eq encoder decoder state pipeCnt log)

theorem io (hP : Kept P) (h : P e) (call : Io) : P (e.io call) :=
  hP.aside h (.io e call)

theorem pollerOp (hP : Kept P) (h : P e) (op : PollerOp) : P (e.pollerOp op) :=
  hP.aside h (.pollerOp e op)

theorem abort (hP : Kept P) (h : P e) : P e.abort :=
  hP.assign h rfl rfl rfl rfl rfl

theorem waitForReconnect (hP : Kept P) (h : P e) : P e.waitForReconnect :=
  hP.state (e := e.addTimer) _ (hP.assign h rfl rfl rfl rfl rfl) nofun

theorem reopen (hP : Kept P) (h : P e) (env : EngineEnv) : P (e.reopen env) := by
  unfold BpTcpEngine.reopen
  split
  · split
    · exact hP.waitForReconnect h
    · next fd _ =>
        have hadded : P (addFd { e with fd := some fd } env.handle) :=
          hP.assign h rfl rfl rfl rfl rfl
        exact hP.state _ (hP.pollerOp hadded _) nofun
  · exact hP.abort h

theorem reconnect (hP : Kept P) (h : P e) (env : EngineEnv) :
    P (e.reconnect env) := by
  have hdrop : P e.dropSocket := hP.aside h (.dropSocket e)
  unfold BpTcpEngine.reconnect
  split
  · dsimp only
    split
    · exact hdrop
    · split
      · exact hP.waitForReconnect hdrop
      · exact hP.reopen hdrop env
  · exact hP.reopen h env

theorem error (hP : Kept P) (h : P e) (env : EngineEnv) : P (e.error env) := by
  have hdiscard := hP.discard h
  unfold BpTcpEngine.error
  dsimp only
  split
  · exact hP.abort hdiscard
  · split
    · exact hP.reconnect hdiscard env
    · have hclose : P e.discard.rmFd.close := hP.aside hdiscard (.rmFd_close _)
      unfold BpTcpEngine.shutdown
      dsimp only
      split
      · exact hclose
      · exact hP.shut hclose

theorem registerEvent (hP : Kept P) (h : P e) (env : EngineEnv) :
    P (e.registerEvent env) := by
  have hadded : P (addFd { e with polled := true } env.handle) :=
    hP.assign h rfl rfl rfl rfl rfl
  unfold BpTcpEngine.registerEvent
  dsimp only
  split
  · exact hP.waitForReconnect (e := { e with polled := true })
      (hP.assign h rfl rfl rfl rfl rfl)
  · split
    · exact hP.pollerOp hadded _
    · split
      · exact hP.pollerOp hadded _
      · exact hadded

theorem timerEvent (hP : Kept P) (h : P e) (env : EngineEnv) :
    P (timerEvent env { e with timers := e.timers - 1 }) := by
  have hfired : P { e with timers := e.timers - 1 } :=
    hP.assign h rfl rfl rfl rfl rfl
  unfold BpTcpEngine.timerEvent
  split
  · exact hP.reconnect hfired env
  · exact hP.abort hfired

theorem decodeBuffer (hP : Kept P) (h : P e) (stuck : Bool) :
    P (e.decode stuck) := by
  unfold BpTcpEngine.decode
  split
  · have hwritten := hP.decode (e.readbuf.drop e.readPos.toNat) h
    dsimp only
    split
    · refine hP.flush (hP.aside ?_ (.repoll _ stuck))
      exact hP.assign hwritten rfl rfl rfl rfl rfl
    · refine hP.aside ?_ (.repoll _ stuck)
      exact hP.assign hwritten rfl rfl rfl rfl rfl
  · exact h

theorem receive (hP : Kept P) (h : P e) (env : EngineEnv) :
    P (e.receive env) := by
  unfold BpTcpEngine.receive
  split
  · apply hP.error
    exact hP.assign (hP.io h (.read e.state e.fd none)) rfl rfl rfl rfl rfl
  · apply hP.decodeBuffer
    exact hP.assign (hP.io h (.read e.state e.fd (some _))) rfl rfl rfl rfl rfl

theorem inEvent (hP : Kept P) (h : P e) (origin : Origin) (env : EngineEnv) :
    P (e.inEvent origin env) := by
  have hio := hP.io h (.assertSocketError origin)
  unfold BpTcpEngine.inEvent
  split
  · dsimp only
    split
    · exact hP.error hio env
    · exact hP.abort hio
  · split
    · exact hP.receive h env
    · exact hP.decodeBuffer h _

theorem outEvent (hP : Kept P) (h : P e) (env : EngineEnv) :
    P (e.outEvent env) := by
  have hfill : P e.fill := by
    unfold BpTcpEngine.fill
    split
    · have hread := hP.encode h
      dsimp only
      split
      · apply hP.pollerOp
        exact hP.assign hread rfl rfl rfl rfl rfl
      · exact hP.assign hread rfl rfl rfl rfl rfl
    · exact h
  unfold BpTcpEngine.outEvent
  split
  · split
    · exact hP.error h env
    · unfold BpTcpEngine.connected
      dsimp only
      split <;> split
      · exact hP.state _ (hP.pollerOp (hP.pollerOp h _) _) nofun
      · exact hP.state _ (hP.pollerOp h _) nofun
      · exact hP.state _ (hP.pollerOp h _) nofun
      · exact hP.state _ h nofun
  · unfold BpTcpEngine.send
    split
    · dsimp only
      split
      · exact hP.error (hP.io hfill _) env
      · exact hP.assign (hP.io hfill _) rfl rfl rfl rfl rfl
    · exact hfill

theorem revive (hP : Kept P) (mux : μ) (h : P (e.mapMux fun _ => mux))
    (env : EngineEnv) : P (e.revive mux env) := by
  unfold BpTcpEngine.revive
  dsimp only
  split
  · exact hP.outEvent (hP.pollerOp h _) env
  · exact h

end Kept

end BpTcpEngine

end ZeroMQ
