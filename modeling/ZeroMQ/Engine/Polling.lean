import ZeroMQ.Engine.Stream

/-!
# What an engine polls for

A `bp_tcp_engine_t` asks the poller for POLLIN and POLLOUT events only while
they are of use: it stops polling for output when there is nothing to send, and
for input when the decoder is stuck or when there is nobody to send to.  Events
are all that wakes the engine up, so each of these has to be taken back in time.

What the poller watches a handle for is computed from the calls the engine has
made (`interest`).

## Main definitions

* `Interest` — the events the poller watches a handle for.
* `OutInv`, `InInv` — polling for output and for input is on while there is
  work.
* `Quieting` — what is asked of a mux.

## Main results

* `PollInv.step` — every event and command keeps the engine polling.
* `pipeCnt_step` — `pipe_cnt` counts the pipes attached.
-/

namespace ZeroMQ

open ZeroMQ.Lib

/-! ## The poller -/

/-- The events the poller watches a handle for. -/
structure Interest where
  pollin : Bool
  pollout : Bool
  deriving DecidableEq, Repr

namespace Interest

/-- The interest `add_fd` starts with. -/
def off : Interest := ⟨false, false⟩

/-- An operation on the handle. -/
def apply (i : Interest) : PollerOp → Interest
  | .rmFd => off
  | .setPollin => { i with pollin := true }
  | .resetPollin => { i with pollin := false }
  | .setPollout => { i with pollout := true }
  | .resetPollout => { i with pollout := false }

/-- The interest after a call of the engine. -/
def after (i : Interest) : Io → Interest
  | .poller op handle registered =>
      if registered = some handle then i.apply op else i
  | _ => i

end Interest

/-! ## Muxes and silence -/

/-- `Q` says that no pipe has anything to be read: it holds of a mux without
pipes, and after a `read` that found nothing. -/
structure Quieting {μ : Type} [Mux μ] (Q : μ → Prop) : Prop where
  empty : ∀ m, Mux.empty m = true → Q m
  read : ∀ m m', Mux.read m = (none, m') → Q m'

/-- With nothing inside, an encoder sends nothing unless the mux has a
message. -/
theorem BpEncoder.read_idle {μ : Type} [Mux μ] {e : BpEncoder μ}
    (hpending : e.pending = []) (hmux : (Mux.read e.derived.mux).1 = none)
    (size : Nat) : (e.read size).2.1 = [] := by
  suffices hloop : ∀ (e : BpEncoder μ) (out : List UInt8)
      (offset : Option Nat), e.pending = [] →
      (Mux.read e.derived.mux).1 = none →
      (Encoder.readLoop fsm size e out offset).2.1 = out from
    hloop e [] none hpending hmux
  intro e out offset
  fun_induction Encoder.readLoop fsm size e out offset with
  | case1 e out offset hsize hdata derived hact marked => exact fun _ _ => rfl
  | case2 e out offset hsize hdata step derived hact marked ih =>
      intro hpending hmux
      have hact : action e.next e.derived = (some step, derived) := hact
      cases hnext : e.next with
      | sizeReady =>
          rw [hnext] at hact
          cases hact
          have hmessage : e.derived.message = [] := by
            simpa [pending, hnext, hdata] using hpending
          apply ih
          · simp [marked, pending, Encoder.nextStep, hmessage]
          · simpa [marked, Encoder.nextStep] using hmux
      | messageReady =>
          rw [hnext] at hact
          simp only [action] at hact
          split at hact
          · cases hact
          · next hread =>
              rw [hread] at hmux
              cases hmux
  | case3 e out offset hsize hdata toCopy ih =>
      intro hpending
      unfold pending at hpending
      split at hpending
      · exact absurd (List.append_eq_nil_iff.mp hpending).1 hdata
      · exact absurd hpending hdata
  | case4 e out offset hsize => exact fun _ _ => rfl

namespace BpTcpEngine

variable {μ δ : Type} {e e' : BpTcpEngine μ δ} {env : EngineEnv}
  {Q : μ → Prop}

/-- What the poller watches the engine's handle for. -/
def interest (e : BpTcpEngine μ δ) : Interest :=
  e.log.foldl Interest.after .off

theorem interest_io (e : BpTcpEngine μ δ) (call : Io) :
    (e.io call).interest = e.interest.after call := by
  simp [interest, io]

theorem interest_pollerOp (hreg : e.registered = some e.handle)
    (op : PollerOp) : (e.pollerOp op).interest = e.interest.apply op := by
  rw [pollerOp, interest_io]
  exact if_pos hreg

theorem pollin_setPollin (hreg : e.registered = some e.handle) :
    (e.pollerOp .setPollin).interest.pollin = true := by
  rw [interest_pollerOp hreg]
  rfl

theorem pollout_setPollout (hreg : e.registered = some e.handle) :
    (e.pollerOp .setPollout).interest.pollout = true := by
  rw [interest_pollerOp hreg]
  rfl

/-- Operations for input leave the interest in output alone. -/
theorem pollout_pollerOp {op : PollerOp}
    (hop : op = .setPollin ∨ op = .resetPollin) :
    (e.pollerOp op).interest.pollout = e.interest.pollout := by
  rw [pollerOp, interest_io]
  unfold Interest.after
  dsimp only
  split
  · rcases hop with rfl | rfl
    · rfl
    · rfl
  · rfl

/-- Operations for output leave the interest in input alone. -/
theorem pollin_pollerOp {op : PollerOp}
    (hop : op = .setPollout ∨ op = .resetPollout) :
    (e.pollerOp op).interest.pollin = e.interest.pollin := by
  rw [pollerOp, interest_io]
  unfold Interest.after
  dsimp only
  split
  · rcases hop with rfl | rfl
    · rfl
    · rfl
  · rfl

/-! ## The invariants -/

/-- Everything taken from the encoder has been written, and nothing is left in
it. -/
structure Drained (e : BpTcpEngine μ δ) : Prop where
  written : e.writePos = e.writebuf.length
  pending : e.encoder.pending = []

/-- There is nothing to send.  A write buffer that a broken connection has left
behind stays only as long as there are no pipes: `revive` does nothing unless
the write buffer is empty. -/
structure Idle [Mux μ] (Q : μ → Prop) (e : BpTcpEngine μ δ) : Prop
    extends Drained e where
  quiet : Q e.encoder.derived.mux
  stale : e.writebuf = [] ∨ Mux.empty e.encoder.derived.mux = true

/-- Polling for output. -/
structure OutInv [Mux μ] (Q : μ → Prop) (e : BpTcpEngine μ δ) : Prop where
  size : 0 < e.writebufSize
  off : e.registered = none → e.interest.pollout = false
  drained : e.state = .connecting ∨ e.state = .waitingForReconnect → Drained e
  connecting : e.polled = true → e.state = .connecting →
    e.interest.pollout = true
  connected : e.state = .connected → e.interest.pollout = true ∨ Idle Q e

/-- Polling for input. -/
structure InInv (e : BpTcpEngine μ δ) : Prop where
  off : e.registered = none → e.interest.pollin = false
  buf : BufInv e
  connected : e.state = .connected → e.interest.pollin = true ∨
    e.readPos < e.readSize ∨ e.pipeCnt = 0

/-- The engine polls while it has work. -/
structure PollInv [Mux μ] (Q : μ → Prop) (e : BpTcpEngine μ δ) : Prop where
  out : OutInv Q e
  inp : InInv e

theorem OutInv.congr [Mux μ] (h : OutInv Q e)
    (hsize : e'.writebufSize = e.writebufSize)
    (hbuf : e'.writebuf = e.writebuf) (hpos : e'.writePos = e.writePos)
    (hencoder : e'.encoder = e.encoder) (hstate : e'.state = e.state)
    (hpolled : e'.polled = e.polled) (hreg : e'.registered = e.registered)
    (hout : e'.interest.pollout = e.interest.pollout) : OutInv Q e' where
  size := by rw [hsize]; exact h.size
  off hr := by
    rw [hout]
    exact h.off (hreg ▸ hr)
  drained hs := by
    rw [hstate] at hs
    exact ⟨by rw [hpos, hbuf, (h.drained hs).written],
      by rw [hencoder, (h.drained hs).pending]⟩
  connecting hp hs := by
    rw [hout]
    exact h.connecting (hpolled ▸ hp) (hstate ▸ hs)
  connected hs := by
    rw [hout]
    rcases h.connected (hstate ▸ hs) with hon | hidle
    · exact .inl hon
    · refine .inr ⟨⟨by rw [hpos, hbuf, hidle.written],
        by rw [hencoder, hidle.pending]⟩, ?_, ?_⟩
      · rw [hencoder]
        exact hidle.quiet
      · rw [hbuf, hencoder]
        exact hidle.stale

theorem InInv.congr (h : InInv e) (hbuf : e'.readbuf = e.readbuf)
    (hpos : e'.readPos = e.readPos) (hsize : e'.readSize = e.readSize)
    (hcnt : e'.pipeCnt = e.pipeCnt) (hstate : e'.state = e.state)
    (hreg : e'.registered = e.registered)
    (hin : e'.interest.pollin = e.interest.pollin) : InInv e' where
  off hr := by
    rw [hin]
    exact h.off (hreg ▸ hr)
  buf := by
    unfold BufInv
    rw [hpos, hsize, hbuf]
    exact h.buf
  connected hs := by
    rw [hin, hpos, hsize, hcnt]
    exact h.connected (hstate ▸ hs)

/-- With a connection all depends on whether there is something to send. -/
theorem OutInv.of_connected [Mux μ] (hsize : 0 < e.writebufSize)
    (hs : e.state = .connected) (hreg : e.registered = some e.handle)
    (h : e.interest.pollout = true ∨ Idle Q e) : OutInv Q e where
  size := hsize
  off hr := by
    rw [hreg] at hr
    cases hr
  drained h := by simp [hs] at h
  connecting _ hc := by
    rw [hs] at hc
    cases hc
  connected _ := h

/-- While POLLOUT is set there is nothing more to show of a connected engine. -/
theorem OutInv.of_pollout [Mux μ] (hsize : 0 < e.writebufSize)
    (hs : e.state = .connected) (hreg : e.registered = some e.handle)
    (hout : e.interest.pollout = true) : OutInv Q e :=
  .of_connected hsize hs hreg (.inl hout)

theorem InInv.of_registered (hreg : e.registered = some e.handle)
    (hbuf : BufInv e) (h : e.interest.pollin = true ∨
      e.readPos < e.readSize ∨ e.pipeCnt = 0) : InInv e where
  off hr := by
    rw [hreg] at hr
    cases hr
  buf := hbuf
  connected _ := h

theorem Running.call (h : Running e) (call : Io) (hcall : call.Safe) :
    Running (e.io call) where
  io := h.io.io hcall
  up := ⟨h.up.registered, h.up.fd⟩
  state := h.state
  polled := h.polled
  aborted := h.aborted

/-! ## The connection breaks -/

/-- An engine without a socket holds nothing of the last connection. -/
structure Rested (e : BpTcpEngine μ δ) : Prop extends Drained e where
  size : 0 < e.writebufSize
  read : e.readPos = e.readSize
  registered : e.registered = none
  interest : e.interest = .off

section Break

variable [Mux μ]

theorem Rested.waitForReconnect (h : Rested e) :
    PollInv Q e.waitForReconnect where
  out :=
    { size := h.size
      off := fun _ => congrArg Interest.pollout h.interest
      drained := fun _ => ⟨h.written, h.pending⟩
      connecting := fun _ hs => by cases hs
      connected := nofun }
  inp :=
    { off := fun _ => congrArg Interest.pollin h.interest
      buf := bufInv_of_eq h.read
      connected := nofun }

theorem Rested.reopen (h : Rested e) (hfd : e.fd = none) :
    PollInv Q (e.reopen env) := by
  rw [BpTcpEngine.reopen, if_pos hfd]
  split
  · exact h.waitForReconnect
  · next fd hopen =>
      have hout : (pollerOp (addFd { e with fd := some fd } env.handle)
          .setPollout).interest.pollout = true := pollout_setPollout rfl
      exact
        { out :=
            { size := h.size
              off := fun hno => by cases hno
              drained := fun _ => ⟨h.written, h.pending⟩
              connecting := fun _ _ => hout
              connected := fun hno => by cases hno }
          inp :=
            { off := fun hno => by cases hno
              buf := bufInv_of_eq h.read
              connected := fun hno => by cases hno } }

omit [Mux μ] in
theorem Running.rested (h : Running e) (hsize : 0 < e.writebufSize)
    (hpending : e.encoder.pending = []) : Rested e.dropSocket := by
  obtain ⟨hclose, hreg, _⟩ := h.rmFd_close
  have hoff : e.rmFd.interest = .off := interest_pollerOp h.up.registered .rmFd
  simp only [BpTcpEngine.dropSocket, hclose]
  exact
    { size := hsize
      written := rfl
      pending := hpending
      read := rfl
      registered := hreg
      interest := hoff }

theorem Running.reconnect_pollInv (h : Running e) (hsize : 0 < e.writebufSize)
    (hpending : e.encoder.pending = []) : PollInv Q (e.reconnect env) := by
  have hrested := h.rested hsize hpending
  have hdrop := h.dropSocket
  unfold BpTcpEngine.reconnect
  rw [if_pos (Or.symm h.state)]
  simp only [hdrop.aborted, Bool.false_eq_true, if_false]
  split
  · exact hrested.waitForReconnect
  · exact hrested.reopen hdrop.down.fd

variable [IDemux δ]

theorem Running.shutdown_pollInv (h : Running e) (hsize : 0 < e.writebufSize)
    (hbuf : BufInv e) : PollInv Q e.shutdown := by
  have hclose := h.rmFd_close.1
  have hoff : e.rmFd.interest = .off := interest_pollerOp h.up.registered .rmFd
  unfold BpTcpEngine.shutdown
  -- What is left of the connection, without the way it was closed.
  generalize hclosed : e.rmFd.close = closed
  rw [hclose] at hclosed
  have hnot : closed.aborted = false := hclosed ▸ h.aborted
  have hinterest : closed.interest = .off := hclosed ▸ hoff
  have hsize : 0 < closed.writebufSize := hclosed ▸ hsize
  have hbuf : BufInv closed := by
    rw [← hclosed]
    exact fun hlt => hbuf hlt
  simp only [hnot, Bool.false_eq_true, if_false]
  exact
    { out :=
        { size := hsize
          off := fun _ => congrArg Interest.pollout hinterest
          drained := fun hs => by simp at hs
          connecting := fun _ hs => by cases hs
          connected := nofun }
      inp :=
        { off := fun _ => congrArg Interest.pollin hinterest
          buf := hbuf
          connected := nofun } }

/-- After an error, unless it ends the process. -/
theorem Running.error_pollInv (h : Running e) (hsize : 0 < e.writebufSize)
    (hbuf : BufInv e) (hpending : e.state = .connecting →
      e.encoder.pending = []) (haborted : (e.error env).aborted = false) :
    PollInv Q (e.error env) := by
  have hrun : Running e.discard := by
    unfold discard
    split
    · exact h.congr rfl rfl rfl rfl rfl rfl rfl
    · exact h
  have hdiscard : e.discard.encoder.pending = [] ∧
      0 < e.discard.writebufSize ∧ BufInv e.discard := by
    unfold discard
    split
    · exact ⟨rfl, hsize, hbuf⟩
    · next hs => exact ⟨hpending (h.state.resolve_right hs), hsize, hbuf⟩
  obtain ⟨hreset, hsize, hbuf⟩ := hdiscard
  unfold BpTcpEngine.error at haborted ⊢
  dsimp only at haborted ⊢
  split
  · next hok =>
      rw [if_pos hok] at haborted
      cases haborted
  · split
    · exact hrun.reconnect_pollInv hsize hreset
    · exact hrun.shutdown_pollInv hsize hbuf

end Break

/-! ## Input -/

section Input

variable [IDemux δ]

/-- `stuck` is the truth, and if it is false then the engine was polling for
input or has nobody to send to. -/
theorem decode_inInv {stuck : Bool} (hreg : e.registered = some e.handle)
    (hbuf : BufInv e)
    (hin : e.interest.pollin = true ∨
      stuck = true ∧ e.readPos < e.readSize ∨ e.pipeCnt = 0) :
    InInv (e.decode stuck) := by
  by_cases hlt : e.readPos < e.readSize
  · obtain ⟨hpos, hlen⟩ := hbuf hlt
    have hle : (Decoder.write BpDecoder.fsm e.decoder
        (e.readbuf.drop e.readPos.toNat)).2 ≤
          (e.readbuf.drop e.readPos.toNat).length := Decoder.write_le _ _
    rw [List.length_drop] at hle
    let moved : BpTcpEngine μ δ :=
      { e with
        decoder := (e.decoder.write (e.readbuf.drop e.readPos.toNat)).1
        readPos := e.readPos +
          (e.decoder.write (e.readbuf.drop e.readPos.toNat)).2 }
    have hmax : moved.readPos ≤ moved.readSize := by
      show e.readPos + ((Decoder.write BpDecoder.fsm e.decoder
        (e.readbuf.drop e.readPos.toNat)).2 : Int) ≤ e.readSize
      omega
    have hmoved : BufInv moved := by
      intro hlt'
      constructor
      · show 0 ≤ e.readPos + ((e.decoder.write _).2 : Int)
        omega
      · exact hlen
    have hrepoll : InInv (moved.repoll stuck) := by
      unfold BpTcpEngine.repoll
      cases stuck with
      | true =>
          rw [if_pos rfl]
          by_cases hend : moved.readPos = moved.readSize
          · rw [if_pos hend]
            exact .of_registered hreg hmoved (.inl (pollin_setPollin hreg))
          · rw [if_neg hend]
            exact .of_registered hreg hmoved (.inr (.inl (by omega)))
      | false =>
          rw [if_neg Bool.false_ne_true]
          by_cases hleft : moved.readPos < moved.readSize
          · rw [if_pos hleft]
            exact .of_registered hreg hmoved (.inr (.inl hleft))
          · rw [if_neg hleft]
            apply InInv.of_registered (e := moved) hreg hmoved
            rcases hin with hon | ⟨hstuck, _⟩ | hcnt
            · exact .inl hon
            · cases hstuck
            · exact .inr (.inr hcnt)
    unfold BpTcpEngine.decode
    rw [if_pos hlt]
    dsimp only
    split
    · exact hrepoll.congr rfl rfl rfl rfl rfl rfl rfl
    · exact hrepoll
  · rw [BpTcpEngine.decode, if_neg hlt]
    apply InInv.of_registered hreg hbuf
    rcases hin with hon | ⟨_, hlt'⟩ | hcnt
    · exact .inl hon
    · exact absurd hlt' hlt
    · exact .inr (.inr hcnt)

omit [IDemux δ] in
theorem OutInv.repoll [Mux μ] (h : OutInv Q e) (stuck : Bool) :
    OutInv Q (e.repoll stuck) := by
  unfold BpTcpEngine.repoll
  split
  · split
    · exact h.congr rfl rfl rfl rfl rfl rfl rfl (pollout_pollerOp (.inl rfl))
    · exact h
  · split
    · exact h.congr rfl rfl rfl rfl rfl rfl rfl (pollout_pollerOp (.inr rfl))
    · exact h

theorem OutInv.decode [Mux μ] (h : OutInv Q e) (stuck : Bool) :
    OutInv Q (e.decode stuck) := by
  unfold BpTcpEngine.decode
  split
  · dsimp only
    generalize e.decoder.write (e.readbuf.drop e.readPos.toNat) = r
    have hmoved : OutInv Q
        { e with decoder := r.1, readPos := e.readPos + r.2 } :=
      h.congr rfl rfl rfl rfl rfl rfl rfl rfl
    split
    · exact (hmoved.repoll stuck).congr rfl rfl rfl rfl rfl rfl rfl rfl
    · exact hmoved.repoll stuck
  · exact h

end Input

section Events

variable [Mux μ]

/-! ## The buffer of the encoder -/

/-- The connection is established: an engine without pipes to read from stops
polling for output. -/
theorem PollInv.connected (hQ : Quieting Q) (h : PollInv Q e)
    (hrun : Running e) (hk : e.state = .connecting) :
    PollInv Q e.connected := by
  have hdrained := h.out.drained (.inl hk)
  have hon := h.out.connecting hrun.polled hk
  have hreg := hrun.up.registered
  unfold BpTcpEngine.connected
  dsimp only
  -- The first decision is about output, the second about input.
  generalize hmuted : (if Mux.empty e.encoder.derived.mux = true then
      e.pollerOp .resetPollout else e) = muted
  have hmute : muted.interest.pollout = true ∨ Idle Q e := by
    rw [← hmuted]
    by_cases hempty : Mux.empty e.encoder.derived.mux = true
    · exact .inr ⟨hdrained, hQ.empty _ hempty, .inr hempty⟩
    · rw [if_neg hempty]
      exact .inl hon
  have hsame : muted = { e with log := muted.log } := by
    rw [← hmuted]
    split
    · rfl
    · rfl
  have hregmuted : muted.registered = some muted.handle := by
    rw [hsame]
    exact hreg
  constructor
  · have hout : OutInv Q { muted with state := .connected } := by
      refine .of_connected ?_ rfl hregmuted ?_
      · rw [hsame]
        exact h.out.size
      · rcases hmute with hout | hidle
        · exact .inl hout
        · right
          rw [hsame]
          exact ⟨⟨hidle.written, hidle.pending⟩, hidle.quiet, hidle.stale⟩
    split
    · exact hout.congr rfl rfl rfl rfl rfl rfl rfl (pollout_pollerOp (.inl rfl))
    · exact hout
  · have hbuf : BufInv muted := by
      rw [hsame]
      exact h.inp.buf
    split
    · exact .of_registered hregmuted hbuf (.inl (pollin_setPollin hregmuted))
    · next hcnt =>
        have hzero : muted.pipeCnt = 0 := by omega
        exact .of_registered hregmuted hbuf (.inr (.inr hzero))

/-- Polling for output goes on after the encoder was called, unless it had
nothing. -/
theorem OutInv.fill (hQ : Quieting Q) (h : OutInv Q e) (hs : e.state = .connected)
    (hreg : e.registered = some e.handle)
    (hout : e.interest.pollout = true ∨ (Q e.encoder.derived.mux →
      (Mux.read e.encoder.derived.mux).1 = none)) : OutInv Q e.fill := by
  unfold BpTcpEngine.fill
  by_cases hpos : e.writePos = e.writebuf.length
  · rw [if_pos hpos]
    dsimp only
    by_cases hnil : (e.encoder.read e.writebufSize).2.1 = []
    · rw [if_pos hnil]
      have hshort : (e.encoder.read e.writebufSize).2.1.length <
          e.writebufSize := by
        rw [hnil]
        exact h.size
      obtain ⟨hpending, mux, hread⟩ := BpEncoder.read_short _ _ hshort
      refine .of_connected h.size hs hreg (.inr ?_)
      refine ⟨⟨?_, hpending⟩, hQ.read mux _ hread, .inl hnil⟩
      show 0 = (e.encoder.read e.writebufSize).2.1.length
      rw [hnil]
      rfl
    · rw [if_neg hnil]
      have hon : e.interest.pollout = true := by
        rcases h.connected hs with hon | hidle
        · exact hon
        · rcases hout with hon | hnone
          · exact hon
          · exact absurd (BpEncoder.read_idle hidle.pending
              (hnone hidle.quiet) _) hnil
      exact .of_pollout h.size hs hreg hon
  · rw [if_neg hpos]
    exact h

theorem InInv.fill (h : InInv e) : InInv e.fill := by
  unfold BpTcpEngine.fill
  split
  · dsimp only
    split
    · exact h.congr rfl rfl rfl rfl rfl rfl (pollin_pollerOp (.inr rfl))
    · exact h.congr rfl rfl rfl rfl rfl rfl rfl
  · exact h

/-! ## Registration, timers and commands -/

theorem PollInv.interest_off (h : PollInv Q e) (hreg : e.registered = none) :
    e.interest = .off := by
  have hout := h.out.off hreg
  have hin := h.inp.off hreg
  cases hi : e.interest with
  | mk pollin pollout =>
      rw [hi] at hout hin
      cases hout
      cases hin
      rfl

theorem PollInv.registerEvent (h : PollInv Q e) (hreg : e.registered = none)
    (hread : e.readPos = e.readSize)
    (hstate : e.state = .connecting ∨ e.state = .connected) :
    PollInv Q (e.registerEvent env) := by
  have hoffout := h.out.off hreg
  have hoffin := h.inp.off hreg
  have hdrained : Drained e := by
    rcases hstate with hk | hs
    · exact h.out.drained (.inl hk)
    · rcases h.out.connected hs with hon | hidle
      · rw [hoffout] at hon
        cases hon
      · exact hidle.toDrained
  unfold BpTcpEngine.registerEvent
  dsimp only
  split
  · apply Rested.waitForReconnect
    exact
      { written := hdrained.written
        pending := hdrained.pending
        size := h.out.size
        read := hread
        registered := hreg
        interest := h.interest_off hreg }
  · let added : BpTcpEngine μ δ := addFd { e with polled := true } env.handle
    have hin : e.state = .connected → e.readPos < e.readSize ∨
        e.pipeCnt = 0 := by
      intro hs
      rcases h.inp.connected hs with hon | hrest
      · rw [hoffin] at hon
        cases hon
      · exact hrest
    split
    · next hk =>
        have hon := pollout_setPollout (e := added) rfl
        exact
          { out :=
              { size := h.out.size
                off := nofun
                drained := fun _ => ⟨hdrained.written, hdrained.pending⟩
                connecting := fun _ _ => hon
                connected := fun hs => absurd (hk.symm.trans hs) (by decide) }
            inp :=
              { off := nofun
                buf := h.inp.buf
                connected := fun hs => .inr (hin hs) } }
    · next hk =>
        have hidle : Idle Q e := by
          rcases h.out.connected (hstate.resolve_left hk) with hon | hidle
          · rw [hoffout] at hon
            cases hon
          · exact hidle
        have hout : OutInv Q added :=
          { size := h.out.size
            off := nofun
            drained := fun _ => ⟨hdrained.written, hdrained.pending⟩
            connecting := fun _ hc => absurd hc hk
            connected := fun _ => .inr ⟨⟨hidle.written, hidle.pending⟩,
              hidle.quiet, hidle.stale⟩ }
        split
        · refine ⟨hout.congr rfl rfl rfl rfl rfl rfl rfl
            (pollout_pollerOp (.inl rfl)), ?_⟩
          exact
            { off := nofun
              buf := h.inp.buf
              connected := fun _ => .inl (pollin_setPollin rfl) }
        · refine ⟨hout, ?_⟩
          exact
            { off := nofun
              buf := h.inp.buf
              connected := fun hs => .inr (hin hs) }

theorem PollInv.timerEvent (h : PollInv Q e) (hplace : PlaceInv e)
    {timers : Nat}
    (haborted : (timerEvent env { e with timers := timers }).aborted = false) :
    PollInv Q (timerEvent env { e with timers := timers }) := by
  unfold BpTcpEngine.timerEvent at haborted ⊢
  by_cases hs : e.state = .waitingForReconnect
  · obtain ⟨hdown, hread⟩ := hplace.waiting hs
    have hdrained := h.out.drained (.inr hs)
    have hrested : Rested { e with timers := timers } :=
      { written := hdrained.written
        pending := hdrained.pending
        size := h.out.size
        read := hread
        registered := hdown.registered
        interest := h.interest_off hdown.registered }
    rw [if_pos hs]
    unfold BpTcpEngine.reconnect
    rw [if_neg (by simp [hs])]
    exact hrested.reopen hdown.fd
  · rw [if_neg hs] at haborted
    cases haborted

omit [Mux μ] in
theorem InInv.mapDemux (h : InInv e) (f : δ → δ) : InInv (e.mapDemux f) :=
  h.congr rfl rfl rfl rfl rfl rfl rfl

theorem PollInv.mapDemux (h : PollInv Q e) (f : δ → δ) :
    PollInv Q (e.mapDemux f) :=
  ⟨h.out.congr rfl rfl rfl rfl rfl rfl rfl rfl, h.inp.mapDemux f⟩

/-- The mux matters to a connected engine that does not poll for output. -/
theorem OutInv.mapMux (h : OutInv Q e) {mux : μ}
    (hmux : e.state = .connected → e.interest.pollout = false → Idle Q e →
      Q mux ∧ (e.writebuf = [] ∨ Mux.empty mux = true)) :
    OutInv Q (e.mapMux fun _ => mux) where
  size := h.size
  off := h.off
  drained hs := ⟨(h.drained hs).written, (h.drained hs).pending⟩
  connecting := h.connecting
  connected hs := by
    cases hon : e.interest.pollout with
    | true => exact .inl hon
    | false =>
        rcases h.connected hs with hout | hidle
        · rw [hon] at hout
          cases hout
        · obtain ⟨hquiet, hstale⟩ := hmux hs hon hidle
          exact .inr ⟨⟨hidle.written, hidle.pending⟩, hquiet, hstale⟩

theorem PollInv.sendTo (h : PollInv Q e) (hsafe : SafeInv e)
    (haborted : e.aborted = false) (hpolled : e.polled = true) (demux : δ) :
    PollInv Q (e.sendTo demux) := by
  have hcounted : OutInv Q { e with pipeCnt := e.pipeCnt + 1 } :=
    h.out.congr rfl rfl rfl rfl rfl rfl rfl rfl
  unfold BpTcpEngine.sendTo
  dsimp only
  split
  · next hc =>
      have hreg := (hsafe.running haborted hpolled (.inr hc.1)).up.registered
      apply PollInv.mapDemux
      refine ⟨hcounted.congr rfl rfl rfl rfl rfl rfl rfl
        (pollout_pollerOp (.inl rfl)), ?_⟩
      exact .of_registered hreg h.inp.buf (.inl (pollin_setPollin hreg))
  · next hc =>
      apply PollInv.mapDemux
      refine ⟨hcounted, h.inp.off, h.inp.buf, fun hs => ?_⟩
      rcases h.inp.connected hs with hon | hlt | hcnt
      · exact .inl hon
      · exact .inr (.inl hlt)
      · exact absurd ⟨hs, by simp [hcnt]⟩ hc

theorem PollInv.receiveFrom (h : PollInv Q e) (hsafe : SafeInv e)
    (haborted : e.aborted = false) (hpolled : e.polled = true) (mux : μ) :
    PollInv Q (e.receiveFrom mux) := by
  unfold BpTcpEngine.receiveFrom
  dsimp only
  let counted : BpTcpEngine μ δ :=
    { e.mapMux fun _ => mux with pipeCnt := e.pipeCnt + 1 }
  split
  · next hs =>
      have hreg : counted.registered = some counted.handle :=
        (hsafe.running haborted hpolled (.inr hs)).up.registered
      have hout : OutInv Q (counted.pollerOp .setPollout) :=
        .of_pollout h.out.size hs hreg (pollout_setPollout hreg)
      have hin : (counted.pollerOp .setPollout).interest.pollin =
          e.interest.pollin := pollin_pollerOp (.inl rfl)
      split
      · refine ⟨hout.congr rfl rfl rfl rfl rfl rfl rfl
          (pollout_pollerOp (.inl rfl)), ?_⟩
        exact .of_registered hreg h.inp.buf (.inl (pollin_setPollin hreg))
      · next hcnt =>
          refine ⟨hout, .of_registered hreg h.inp.buf ?_⟩
          rcases h.inp.connected hs with hon | hlt | hzero
          · exact .inl (hin.trans hon)
          · exact .inr (.inl hlt)
          · exact absurd (congrArg (· + 1) hzero) hcnt
  · next hs =>
      exact
        { out :=
            { size := h.out.size
              off := h.out.off
              drained := fun hc =>
                ⟨(h.out.drained hc).written, (h.out.drained hc).pending⟩
              connecting := h.out.connecting
              connected := fun hc => absurd hc hs }
          inp :=
            { off := h.inp.off
              buf := h.inp.buf
              connected := fun hc => absurd hc hs } }

/-! ## The events of the socket -/

variable [IDemux δ]

theorem PollInv.receive (h : PollInv Q e) (hrun : Running e)
    (hs : e.state = .connected) (heq : e.readPos = e.readSize)
    (haborted : (e.receive env).aborted = false) :
    PollInv Q (e.receive env) := by
  have hin : e.interest.pollin = true ∨ e.pipeCnt = 0 := by
    rcases h.inp.connected hs with hon | hlt | hcnt
    · exact .inl hon
    · omega
    · exact .inr hcnt
  unfold BpTcpEngine.receive at haborted ⊢
  cases hread : env.read with
  | none =>
      rw [hread] at haborted
      have hasked : Running { e.io (.read e.state e.fd none) with
          readSize := -1, readPos := 0 } :=
        (hrun.call (.read e.state e.fd none) ⟨hs, hrun.up.fd⟩).congr rfl rfl rfl rfl rfl rfl rfl
      have hbuf : BufInv { e.io (.read e.state e.fd none) with
          readSize := -1, readPos := 0 } := by
        intro hlt
        cases hlt
      exact hasked.error_pollInv h.out.size hbuf
        (fun hc => absurd (hs.symm.trans hc) (by decide)) haborted
  | some bytes =>
      dsimp only
      let got : BpTcpEngine μ δ :=
        { e.io (.read e.state e.fd (some (bytes.take e.readbufSize))) with
          readbuf := bytes.take e.readbufSize
          readSize := (bytes.take e.readbufSize).length
          readPos := 0 }
      have hsame : got.interest = e.interest := interest_io e _
      constructor
      · have hout : OutInv Q got :=
          h.out.congr rfl rfl rfl rfl rfl rfl rfl
            (congrArg Interest.pollout hsame)
        exact hout.decode false
      · have hbuf : BufInv got := fun _ => ⟨Int.le_refl 0, rfl⟩
        apply decode_inInv (e := got) hrun.up.registered hbuf
        rcases hin with hon | hcnt
        · exact .inl (hsame ▸ hon)
        · exact .inr (.inr hcnt)

theorem PollInv.inEvent (h : PollInv Q e) (hrun : Running e)
    {origin : Origin} (hc : origin = .poller ∨ e.state = .connected)
    (haborted : (e.inEvent origin env).aborted = false) :
    PollInv Q (e.inEvent origin env) := by
  unfold BpTcpEngine.inEvent at haborted ⊢
  by_cases hk : e.state = .connecting
  · have horigin : origin = .poller := by
      rcases hc with ho | hs
      · exact ho
      · rw [hs] at hk
        cases hk
    rw [if_pos hk] at haborted ⊢
    dsimp only at haborted ⊢
    split
    · next herr =>
        rw [if_pos herr] at haborted
        exact (hrun.call (.assertSocketError origin) horigin).error_pollInv
          h.out.size h.inp.buf
          (fun _ => (h.out.drained (.inl hk)).pending) haborted
    · next herr =>
        rw [if_neg herr] at haborted
        cases haborted
  · have hs := hrun.state.resolve_left hk
    rw [if_neg hk] at haborted ⊢
    split
    · next heq =>
        rw [if_pos heq] at haborted
        exact h.receive hrun hs heq haborted
    · next hne =>
        refine ⟨h.out.decode _, ?_⟩
        apply decode_inInv hrun.up.registered h.inp.buf
        rcases h.inp.connected hs with hon | hlt | hcnt
        · exact .inl hon
        · exact .inr (.inl ⟨decide_eq_true hlt, hlt⟩)
        · exact .inr (.inr hcnt)

theorem PollInv.send (h : PollInv Q e) (hrun : Running e)
    (hs : e.state = .connected)
    (haborted : (e.send env).aborted = false) : PollInv Q (e.send env) := by
  unfold BpTcpEngine.send at haborted ⊢
  by_cases hleft : e.writePos < e.writebuf.length
  · have hon : e.interest.pollout = true := by
      rcases h.out.connected hs with hon | hidle
      · exact hon
      · have := hidle.written
        omega
    rw [if_pos hleft] at haborted ⊢
    dsimp only at haborted ⊢
    cases hwrite : env.write with
    | none =>
        rw [hwrite] at haborted
        have hasked : Running (e.io (.write e.state e.fd
            (e.writebuf.drop e.writePos) none)) :=
          hrun.call _ ⟨hs, hrun.up.fd⟩
        exact hasked.error_pollInv h.out.size h.inp.buf
          (fun hc => absurd (hs.symm.trans hc) (by decide)) haborted
    | some n =>
        dsimp only
        have hsame := interest_io e (.write e.state e.fd
          (e.writebuf.drop e.writePos)
          (some (min n (e.writebuf.drop e.writePos).length)))
        constructor
        · exact .of_pollout h.out.size hs hrun.up.registered
            ((congrArg Interest.pollout hsame).trans hon)
        · exact h.inp.congr rfl rfl rfl rfl rfl rfl
            (congrArg Interest.pollin hsame)
  · rw [if_neg hleft]
    exact h

theorem PollInv.outEvent (hQ : Quieting Q) (h : PollInv Q e)
    (hrun : Running e)
    (hout : e.interest.pollout = true ∨ (Q e.encoder.derived.mux →
      (Mux.read e.encoder.derived.mux).1 = none))
    (haborted : (e.outEvent env).aborted = false) :
    PollInv Q (e.outEvent env) := by
  unfold BpTcpEngine.outEvent at haborted ⊢
  by_cases hk : e.state = .connecting
  · rw [if_pos hk] at haborted ⊢
    split
    · next herr =>
        rw [if_pos herr] at haborted
        exact hrun.error_pollInv h.out.size h.inp.buf
          (fun _ => (h.out.drained (.inl hk)).pending) haborted
    · exact h.connected hQ hrun hk
  · have hs := hrun.state.resolve_left hk
    rw [if_neg hk] at haborted ⊢
    obtain ⟨hfill, hstate⟩ := hrun.fill
    have hfilled : PollInv Q e.fill :=
      ⟨h.out.fill hQ hs hrun.up.registered hout, h.inp.fill⟩
    exact hfilled.send hfill (hstate.trans hs) haborted

theorem PollInv.revive (hQ : Quieting Q) (h : PollInv Q e)
    (hrun : Running e) (hs : e.state = .connected) {mux : μ}
    (hmux : Mux.empty e.encoder.derived.mux = false)
    (haborted : (e.revive mux env).aborted = false) :
    PollInv Q (e.revive mux env) := by
  have hinp : InInv (e.mapMux fun _ => mux) :=
    h.inp.congr rfl rfl rfl rfl rfl rfl rfl
  unfold BpTcpEngine.revive at haborted ⊢
  dsimp only at haborted ⊢
  split
  · next hc =>
      rw [if_pos hc] at haborted
      have hmapped : Running (e.mapMux fun _ => mux) :=
        hrun.congr rfl rfl rfl rfl rfl rfl rfl
      have hon := pollout_setPollout (e := e.mapMux fun _ => mux)
        hrun.up.registered
      have hpoll : PollInv Q ((e.mapMux fun _ => mux).pollerOp .setPollout) :=
        ⟨.of_pollout h.out.size hs hrun.up.registered hon,
          hinp.congr rfl rfl rfl rfl rfl rfl (pollin_pollerOp (.inl rfl))⟩
      exact hpoll.outEvent hQ (hmapped.pollerOp _) (.inl hon) haborted
  · next hc =>
      -- The write buffer is not empty, so the engine polls for output.
      refine ⟨h.out.mapMux fun _ _ hidle => ?_, hinp⟩
      rcases hidle.stale with hnil | hempty
      · exact absurd ⟨hs, by simp [mapMux, hnil]⟩ hc
      · rw [hmux] at hempty
        cases hempty

/-! ## Every event and command -/

/-- `head` and `revive` find the engine connected, `revive` is for a pipe in
the mux, and whatever else happens to the pipes makes none of them readable and
adds none.  An `out_event` is raised while POLLOUT is set; one that comes late
finds nothing to send. -/
def Orderly (Q : μ → Prop) (e : BpTcpEngine μ δ) : EngineAct μ δ → Prop
  | .outEvent _ => e.interest.pollout = true ∨
      (Q e.encoder.derived.mux → (Mux.read e.encoder.derived.mux).1 = none)
  | .head _ _ => e.state = .connected
  | .revive _ _ =>
      e.state = .connected ∧ Mux.empty e.encoder.derived.mux = false
  | .pipes mux _ => (Q e.encoder.derived.mux → Q mux) ∧
      (Mux.empty e.encoder.derived.mux = true → Mux.empty mux = true)
  | _ => True

theorem Orderly.headSafe {act : EngineAct μ δ} (h : Orderly Q e act) :
    HeadSafe e act := by
  cases act with
  | head demux env => exact .inl h
  | _ => trivial

theorem PollInv.step (hQ : Quieting Q) (h : PollInv Q e) (hsafe : SafeInv e)
    {act : EngineAct μ δ} (hok : Orderly Q e act)
    (hstep : step e act = some e') (haborted' : e'.aborted = false) :
    PollInv Q e' := by
  obtain ⟨haborted, hstep⟩ := Step.of_step hstep
  cases hstep with
  | register hp =>
      obtain ⟨hreg, hstate, hread⟩ := (hsafe.place haborted).fresh hp
      exact h.registerEvent hreg hread hstate
  | inEvent hreg =>
      exact h.inEvent (hsafe.running_of_registered haborted hreg) (.inl rfl)
        haborted'
  | outEvent hreg =>
      exact h.outEvent hQ (hsafe.running_of_registered haborted hreg) hok
        haborted'
  | timer ht => exact h.timerEvent (hsafe.place haborted) haborted'
  | @head demux env hp =>
      have hrun : Running (e.mapDemux fun _ => demux) :=
        (hsafe.running haborted hp (.inr hok)).congr rfl rfl rfl rfl rfl rfl rfl
      exact (h.mapDemux _).inEvent hrun (.inr hok) haborted'
  | revive hp =>
      exact h.revive hQ (hsafe.running haborted hp (.inr hok.1)) hok.1 hok.2
        haborted'
  | sendTo hp => exact h.sendTo hsafe haborted hp _
  | receiveFrom hp => exact h.receiveFrom hsafe haborted hp _
  | @pipes mux demux =>
      apply PollInv.mapDemux
      refine ⟨h.out.mapMux fun _ _ hidle => ⟨hok.1 hidle.quiet, ?_⟩, ?_⟩
      · rcases hidle.stale with hnil | hempty
        · exact .inl hnil
        · exact .inr (hok.2 hempty)
      · exact h.inp.congr rfl rfl rfl rfl rfl rfl rfl

/-! ## The pipes attached so far -/

section Attached

theorem kept_pipeCnt (n : Nat) :
    Kept fun e : BpTcpEngine μ δ => e.pipeCnt = n where
  aside h haside := haside.pipeCnt.trans h
  state _ h _ := h
  encode h := h
  decode _ h := h
  flush h := h
  discard {e} h := by
    unfold BpTcpEngine.discard
    split
    · exact h
    · exact h
  shut h := h

/-- The commands that attach a pipe. -/
def attaches : EngineAct μ δ → Bool
  | .sendTo _ | .receiveFrom _ => true
  | _ => false

/-- `pipe_cnt` counts the pipes attached, and never goes down. -/
theorem pipeCnt_step {act : EngineAct μ δ} (h : step e act = some e') :
    e'.pipeCnt = e.pipeCnt + if attaches act then 1 else 0 := by
  obtain ⟨_, hstep⟩ := Step.of_step h
  have hkept := kept_pipeCnt (μ := μ) (δ := δ) e.pipeCnt
  cases hstep with
  | register hp => exact hkept.registerEvent rfl _
  | inEvent hreg => exact hkept.inEvent rfl _ _
  | outEvent hreg => exact hkept.outEvent rfl _
  | timer ht => exact hkept.timerEvent rfl _
  | head hp => exact hkept.inEvent (e := e.mapDemux _) rfl _ _
  | @revive mux env hp => exact hkept.revive mux rfl env
  | sendTo hp =>
      unfold BpTcpEngine.sendTo
      dsimp only
      split
      · rfl
      · rfl
  | receiveFrom hp =>
      unfold BpTcpEngine.receiveFrom
      dsimp only
      split
      · split
        · rfl
        · rfl
      · rfl
  | pipes => rfl

end Attached

end Events

end BpTcpEngine

end ZeroMQ
