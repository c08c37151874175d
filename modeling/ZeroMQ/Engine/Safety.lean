import ZeroMQ.Engine.Basic

/-!
# An engine uses the socket it has

The engine is registered with the poller exactly while it has a socket.  Every
handler keeps this, and makes its calls only then, with one exception: `head`
calls `in_event` whatever state the engine is in.  Its sibling `revive` asks
first.

## Main results

* `SafeInv.step` — a handler called where it may be keeps the engine's place in
  the poller in line with its state, and makes no stray call.
* `io_safe_iff` — a run makes no stray call exactly when every `head` in it
  finds the engine connected, or shutting down with nothing to do for it.
* `ioSafe_of_headConnected` — no stray call if every `head` finds the engine
  connected.
* `head_while_not_connected` — runs in which it does not.
-/

namespace ZeroMQ

/-- The call is one an engine may make: the socket is read and written while
the engine is connected and has one, poller operations go to the handle that is
registered, and the error state is asserted on behalf of the poller only. -/
def Io.Safe : Io → Prop
  | .read state fd _ => state = .connected ∧ fd ≠ none
  | .write state fd _ _ => state = .connected ∧ fd ≠ none
  | .poller _ handle registered => registered = some handle
  | .assertSocketError origin => origin = .poller

instance : DecidablePred Io.Safe := fun call => by
  cases call <;> unfold Io.Safe <;> infer_instance

namespace BpTcpEngine

open ZeroMQ.Lib

variable {μ δ : Type}

/-- All calls made so far were safe. -/
def IoSafe (e : BpTcpEngine μ δ) : Prop := ∀ call ∈ e.log, call.Safe

theorem IoSafe.io {e : BpTcpEngine μ δ} (h : e.IoSafe) {call : Io}
    (hcall : call.Safe) : (e.io call).IoSafe := by
  intro c hc
  rcases List.mem_append.mp hc with hold | hnew
  · exact h c hold
  · rw [List.mem_singleton.mp hnew]
    exact hcall

theorem IoSafe.pollerOp {e : BpTcpEngine μ δ} (h : e.IoSafe)
    (hreg : e.registered = some e.handle) (op : PollerOp) :
    (e.pollerOp op).IoSafe :=
  h.io hreg

/-! ## The engine's place in the poller -/

/-- The engine has a socket, and the poller its handle. -/
structure Up (e : BpTcpEngine μ δ) : Prop where
  registered : e.registered = some e.handle
  fd : e.fd ≠ none

/-- The engine has no socket, and the poller does not know it. -/
structure Down (e : BpTcpEngine μ δ) : Prop where
  registered : e.registered = none
  fd : e.fd = none

/-- The state of the engine says whether it is up or down. -/
structure PlaceInv (e : BpTcpEngine μ δ) : Prop where
  fresh : e.polled = false → e.registered = none ∧
    (e.state = .connecting ∨ e.state = .connected) ∧ e.readPos = e.readSize
  up : e.polled = true → e.state = .connecting ∨ e.state = .connected → Up e
  waiting : e.state = .waitingForReconnect →
    Down e ∧ e.readPos = e.readSize
  shuttingDown : e.state = .shuttingDown → Down e

/-- No stray call so far; and unless an assertion has failed the engine is in
its place. -/
structure SafeInv (e : BpTcpEngine μ δ) : Prop where
  io : e.IoSafe
  place : e.aborted = false → PlaceInv e

variable {e : BpTcpEngine μ δ} {env : EngineEnv} {e' : BpTcpEngine μ δ}

/-- An engine that handles an event or a command with its socket. -/
structure Running (e : BpTcpEngine μ δ) : Prop where
  io : e.IoSafe
  up : Up e
  state : e.state = .connecting ∨ e.state = .connected
  polled : e.polled = true
  aborted : e.aborted = false

theorem Running.safe (h : Running e) : SafeInv e where
  io := h.io
  place _ :=
    { fresh := by simp [h.polled]
      up := fun _ _ => h.up
      waiting := fun hw => by simpa [hw] using h.state
      shuttingDown := fun hs => by simpa [hs] using h.state }

theorem Running.pollerOp (h : Running e) (op : PollerOp) :
    Running (e.pollerOp op) :=
  { h with
    io := h.io.pollerOp h.up.registered op
    up := ⟨h.up.registered, h.up.fd⟩ }

/-- Most of what handlers change has no part in this. -/
theorem Running.congr (h : Running e) (hlog : e'.log = e.log)
    (hreg : e'.registered = e.registered) (hhandle : e'.handle = e.handle)
    (hfd : e'.fd = e.fd) (hstate : e'.state = e.state)
    (hpolled : e'.polled = e.polled) (haborted : e'.aborted = e.aborted) :
    Running e' where
  io := by
    unfold IoSafe
    rw [hlog]
    exact h.io
  up := ⟨by rw [hreg, hhandle, h.up.registered], by rw [hfd]; exact h.up.fd⟩
  state := by rw [hstate]; exact h.state
  polled := by rw [hpolled, h.polled]
  aborted := by rw [haborted, h.aborted]

theorem SafeInv.abort (hio : e.IoSafe) : SafeInv e.abort where
  io := hio
  place h := by simp [BpTcpEngine.abort] at h

theorem Running.rmFd_close (h : Running e) :
    e.rmFd.close = { e.rmFd with fd := none } ∧ e.rmFd.registered = none ∧
      e.rmFd.IoSafe := by
  refine ⟨?_, ?_, h.io.pollerOp h.up.registered .rmFd⟩
  · rw [close, if_neg]
    exact h.up.fd
  · simp [rmFd, h.up.registered]

/-- An engine without a socket that may get a new one. -/
structure Resting (e : BpTcpEngine μ δ) : Prop where
  io : e.IoSafe
  down : Down e
  polled : e.polled = true
  aborted : e.aborted = false
  read : e.readPos = e.readSize

theorem Running.dropSocket (h : Running e) : Resting e.dropSocket := by
  obtain ⟨hclose, hreg, hio⟩ := h.rmFd_close
  simp only [BpTcpEngine.dropSocket, hclose]
  exact
    { io := hio
      down := ⟨hreg, rfl⟩
      polled := h.polled
      aborted := h.aborted
      read := rfl }

theorem Resting.waitForReconnect (h : Resting e) :
    SafeInv e.waitForReconnect where
  io := h.io
  place _ :=
    { fresh := by simp [BpTcpEngine.waitForReconnect, addTimer, h.polled]
      up := by simp [BpTcpEngine.waitForReconnect]
      waiting := fun _ => ⟨⟨h.down.registered, h.down.fd⟩, h.read⟩
      shuttingDown := by simp [BpTcpEngine.waitForReconnect] }

theorem Resting.reopen (h : Resting e) : SafeInv (e.reopen env) := by
  rw [BpTcpEngine.reopen, if_pos h.down.fd]
  split
  · exact h.waitForReconnect
  · next fd hfd =>
      apply Running.safe
      exact
        { io := IoSafe.pollerOp (e := addFd { e with fd := some fd } env.handle)
            h.io rfl .setPollout
          up := ⟨rfl, by simp [BpTcpEngine.pollerOp, BpTcpEngine.io, addFd]⟩
          state := .inl rfl
          polled := h.polled
          aborted := h.aborted }

theorem Running.reconnect (h : Running e) : SafeInv (e.reconnect env) := by
  have hdrop := h.dropSocket
  unfold BpTcpEngine.reconnect
  rw [if_pos (Or.symm h.state)]
  simp only [hdrop.aborted, Bool.false_eq_true, if_false]
  split
  · exact hdrop.waitForReconnect
  · exact hdrop.reopen

theorem Running.repoll (h : Running e) (stuck : Bool) :
    Running (e.repoll stuck) := by
  unfold BpTcpEngine.repoll
  split <;> split
  · exact h.pollerOp _
  · exact h
  · exact h.pollerOp _
  · exact h

/-- An event for a registered handle finds the engine running. -/
theorem SafeInv.running (h : SafeInv e) (haborted : e.aborted = false)
    (hpolled : e.polled = true)
    (hstate : e.state = .connecting ∨ e.state = .connected) : Running e where
  io := h.io
  up := (h.place haborted).up hpolled hstate
  state := hstate
  polled := hpolled
  aborted := haborted

theorem SafeInv.running_of_registered (h : SafeInv e)
    (haborted : e.aborted = false) (hreg : e.registered ≠ none) :
    Running e := by
  have hplace := h.place haborted
  have hpolled : e.polled = true := by
    cases hp : e.polled with
    | true => rfl
    | false => exact (hreg (hplace.fresh hp).1).elim
  apply h.running haborted hpolled
  cases hs : e.state with
  | connecting => exact .inl rfl
  | connected => exact .inr rfl
  | waitingForReconnect =>
      exact (hreg (hplace.waiting hs).1.registered).elim
  | shuttingDown => exact (hreg (hplace.shuttingDown hs).registered).elim

theorem SafeInv.registerEvent (h : SafeInv e) (haborted : e.aborted = false)
    (hpolled : e.polled = false) : SafeInv (e.registerEvent env) := by
  obtain ⟨hreg, hstate, hread⟩ := (h.place haborted).fresh hpolled
  unfold BpTcpEngine.registerEvent
  dsimp only
  split
  · next hfd =>
      apply Resting.waitForReconnect
      exact
        { io := h.io
          down := ⟨hreg, hfd⟩
          polled := rfl
          aborted := haborted
          read := hread }
  · next hfd =>
      have hadded : Running (addFd { e with polled := true } env.handle) :=
        { io := h.io
          up := ⟨rfl, hfd⟩
          state := hstate
          polled := rfl
          aborted := haborted }
      split
      · exact (hadded.pollerOp _).safe
      · split
        · exact (hadded.pollerOp _).safe
        · exact hadded.safe

theorem SafeInv.timerEvent (h : SafeInv e) (haborted : e.aborted = false) :
    SafeInv (timerEvent env { e with timers := e.timers - 1 }) := by
  unfold BpTcpEngine.timerEvent
  split
  · next hwait =>
      have hwait : e.state = .waitingForReconnect := hwait
      have hplace := h.place haborted
      obtain ⟨hdown, hread⟩ := hplace.waiting hwait
      unfold BpTcpEngine.reconnect
      rw [if_neg (by simp [hwait])]
      apply Resting.reopen
      exact
        { io := h.io
          down := ⟨hdown.registered, hdown.fd⟩
          polled := by
            cases hp : e.polled with
            | true => rfl
            | false => simpa [hwait] using (hplace.fresh hp).2.1
          aborted := haborted
          read := hread }
  · exact SafeInv.abort h.io

theorem SafeInv.congr (h : SafeInv e) (hlog : e'.log = e.log)
    (hreg : e'.registered = e.registered) (hhandle : e'.handle = e.handle)
    (hfd : e'.fd = e.fd) (hstate : e'.state = e.state)
    (hpolled : e'.polled = e.polled) (haborted : e'.aborted = e.aborted)
    (hread : e'.readPos = e'.readSize ↔ e.readPos = e.readSize) :
    SafeInv e' where
  io := by
    unfold IoSafe
    rw [hlog]
    exact h.io
  place hab := by
    have hplace := h.place (haborted ▸ hab)
    exact
      { fresh := by
          rw [hpolled, hreg, hstate, hread]
          exact hplace.fresh
        up := by
          rw [hpolled, hstate]
          intro hp hs
          have hup := hplace.up hp hs
          exact ⟨by rw [hreg, hhandle, hup.registered],
            by rw [hfd]; exact hup.fd⟩
        waiting := by
          rw [hstate, hread]
          intro hs
          obtain ⟨hdown, hr⟩ := hplace.waiting hs
          exact ⟨⟨by rw [hreg, hdown.registered], by rw [hfd, hdown.fd]⟩, hr⟩
        shuttingDown := by
          rw [hstate]
          intro hs
          have hdown := hplace.shuttingDown hs
          exact ⟨by rw [hreg, hdown.registered], by rw [hfd, hdown.fd]⟩ }

theorem SafeInv.sendTo (h : SafeInv e) (haborted : e.aborted = false)
    (hpolled : e.polled = true) (demux : δ) : SafeInv (e.sendTo demux) := by
  have hcounted : SafeInv { e with pipeCnt := e.pipeCnt + 1 } :=
    h.congr rfl rfl rfl rfl rfl rfl rfl Iff.rfl
  unfold BpTcpEngine.sendTo
  dsimp only
  split
  · next hc =>
      have hrun := hcounted.running haborted hpolled (.inr hc.1)
      have hop := (hrun.pollerOp .setPollin).safe
      exact hop.congr rfl rfl rfl rfl rfl rfl rfl Iff.rfl
  · exact hcounted.congr rfl rfl rfl rfl rfl rfl rfl Iff.rfl

theorem SafeInv.receiveFrom (h : SafeInv e) (haborted : e.aborted = false)
    (hpolled : e.polled = true) (mux : μ) : SafeInv (e.receiveFrom mux) := by
  have hcounted : SafeInv
      { e.mapMux fun _ => mux with pipeCnt := e.pipeCnt + 1 } :=
    h.congr rfl rfl rfl rfl rfl rfl rfl Iff.rfl
  unfold BpTcpEngine.receiveFrom
  dsimp only
  split
  · next hc =>
      have hrun := hcounted.running haborted hpolled (.inr hc)
      split
      · exact ((hrun.pollerOp _).pollerOp _).safe
      · exact (hrun.pollerOp _).safe
  · exact hcounted

/-! ## The handlers -/

section Demux

variable [IDemux δ]

theorem Running.decode (h : Running e) (stuck : Bool) :
    Running (e.decode stuck) := by
  unfold BpTcpEngine.decode
  split
  · dsimp only
    generalize e.decoder.write (e.readbuf.drop e.readPos.toNat) = r
    have hmoved : Running
        { e with decoder := r.1, readPos := e.readPos + r.2 } :=
      h.congr rfl rfl rfl rfl rfl rfl rfl
    split
    · exact (hmoved.repoll stuck).congr rfl rfl rfl rfl rfl rfl rfl
    · exact hmoved.repoll stuck
  · exact h

/-- Where `head` does no harm: in a connected engine, and in one that is
shutting down if `in_event` then has nothing to read and leaves the decoder
stuck, or has nothing to do at all. -/
def HeadSafe (e : BpTcpEngine μ δ) : EngineAct μ δ → Prop
  | .head demux _ =>
      e.state = .connected ∨ e.state = .shuttingDown ∧
        e.readPos ≠ e.readSize ∧
        (e.readPos < e.readSize →
          e.readPos + ((e.mapDemux fun _ => demux).decoder.write
            (e.readbuf.drop e.readPos.toNat)).2 ≠ e.readSize)
  | _ => True

/-- A decoder that stays stuck needs nothing of the poller. -/
theorem SafeInv.decode_stuck (h : SafeInv e) (hne : e.readPos ≠ e.readSize)
    (hstuck : e.readPos < e.readSize →
      e.readPos + (e.decoder.write (e.readbuf.drop e.readPos.toNat)).2 ≠
        e.readSize) :
    SafeInv (e.decode (decide (e.readPos < e.readSize))) := by
  unfold BpTcpEngine.decode
  split
  · next hlt =>
      have hne' := hstuck hlt
      dsimp only
      generalize e.decoder.write (e.readbuf.drop e.readPos.toNat) = r at hne'
      have hquiet : repoll (decide (e.readPos < e.readSize))
          { e with decoder := r.1, readPos := e.readPos + r.2 } =
          { e with decoder := r.1, readPos := e.readPos + r.2 } := by
        simp [BpTcpEngine.repoll, hlt, hne']
      have hmoved : SafeInv
          { e with decoder := r.1, readPos := e.readPos + r.2 } :=
        h.congr rfl rfl rfl rfl rfl rfl rfl (by simp [hne, hne'])
      rw [hquiet]
      split
      · exact hmoved.congr rfl rfl rfl rfl rfl rfl rfl Iff.rfl
      · exact hmoved
  · exact h

end Demux

section Mux

variable [Mux μ]

theorem Running.fill (h : Running e) :
    Running e.fill ∧ e.fill.state = e.state := by
  unfold BpTcpEngine.fill
  split
  · dsimp only
    generalize e.encoder.read e.writebufSize = r
    have hfilled : Running
        { e with encoder := r.1, writebuf := r.2.1, writePos := 0 } :=
      h.congr rfl rfl rfl rfl rfl rfl rfl
    split
    · exact ⟨hfilled.pollerOp _, rfl⟩
    · exact ⟨hfilled, rfl⟩
  · exact ⟨h, rfl⟩

theorem Running.connected (h : Running e) : SafeInv e.connected := by
  have hout : Running
      (if Mux.empty e.encoder.derived.mux then e.pollerOp .resetPollout
        else e) := by
    split
    · exact h.pollerOp _
    · exact h
  unfold BpTcpEngine.connected
  dsimp only
  generalize (if Mux.empty e.encoder.derived.mux then e.pollerOp .resetPollout
    else e) = e' at hout ⊢
  have hin : Running
      (if 0 < e'.pipeCnt then e'.pollerOp .setPollin else e') := by
    split
    · exact hout.pollerOp _
    · exact hout
  apply Running.safe
  exact
    { hin with
      up := ⟨hin.up.registered, hin.up.fd⟩
      state := .inr rfl }

end Mux

variable [Mux μ] [IDemux δ] {as : List (EngineAct μ δ)}

theorem Running.shutdown (h : Running e) : SafeInv e.shutdown := by
  obtain ⟨hclose, hreg, hio⟩ := h.rmFd_close
  have hnot : ({ e.rmFd with fd := none } : BpTcpEngine μ δ).aborted = false :=
    h.aborted
  simp only [BpTcpEngine.shutdown, hclose, hnot, Bool.false_eq_true, if_false]
  exact
    { io := hio
      place := fun _ =>
        { fresh := fun hp => by
            have hpolled : e.polled = false := hp
            simp [h.polled] at hpolled
          up := by simp
          waiting := by simp
          shuttingDown := fun _ => ⟨hreg, rfl⟩ } }

theorem Running.error (h : Running e) : SafeInv (e.error env) := by
  have hd : Running e.discard := by
    unfold discard
    split
    · exact h.congr rfl rfl rfl rfl rfl rfl rfl
    · exact h
  unfold BpTcpEngine.error
  dsimp only
  split
  · exact SafeInv.abort hd.io
  · split
    · exact hd.reconnect
    · exact hd.shutdown

theorem Running.receive (h : Running e) (hc : e.state = .connected) :
    SafeInv (e.receive env) := by
  have hsafe : ∀ result, (Io.read e.state e.fd result).Safe :=
    fun _ => ⟨hc, h.up.fd⟩
  unfold BpTcpEngine.receive
  split
  · apply Running.error
    exact
      { h with
        io := h.io.io (hsafe none)
        up := ⟨h.up.registered, h.up.fd⟩ }
  · dsimp only
    apply Running.safe
    apply Running.decode
    exact
      { h with
        io := h.io.io (hsafe _)
        up := ⟨h.up.registered, h.up.fd⟩ }

/-- `in_event`, raised by the poller or by `head` in a connected engine. -/
theorem Running.inEvent (h : Running e) {origin : Origin}
    (hc : origin = .poller ∨ e.state = .connected) :
    SafeInv (e.inEvent origin env) := by
  unfold BpTcpEngine.inEvent
  split
  · next hconnecting =>
      have horigin : origin = .poller := by
        rcases hc with ho | hc
        · exact ho
        · rw [hc] at hconnecting
          cases hconnecting
      have hasserted : Running (e.io (.assertSocketError origin)) :=
        { h with
          io := h.io.io horigin
          up := ⟨h.up.registered, h.up.fd⟩ }
      dsimp only
      split
      · exact hasserted.error
      · exact SafeInv.abort hasserted.io
  · next hconnecting =>
      have hconnected := h.state.resolve_left hconnecting
      split
      · exact h.receive hconnected
      · exact (h.decode _).safe

theorem Running.send (h : Running e) (hc : e.state = .connected) :
    SafeInv (e.send env) := by
  have hsafe : ∀ data result, (Io.write e.state e.fd data result).Safe :=
    fun _ _ => ⟨hc, h.up.fd⟩
  unfold BpTcpEngine.send
  split
  · dsimp only
    split
    · apply Running.error
      exact
        { h with
          io := h.io.io (hsafe _ none)
          up := ⟨h.up.registered, h.up.fd⟩ }
    · apply Running.safe
      exact
        { h with
          io := h.io.io (hsafe _ _)
          up := ⟨h.up.registered, h.up.fd⟩ }
  · exact h.safe

theorem Running.outEvent (h : Running e) : SafeInv (e.outEvent env) := by
  unfold BpTcpEngine.outEvent
  split
  · split
    · exact h.error
    · exact h.connected
  · next hconnecting =>
      obtain ⟨hfill, hstate⟩ := h.fill
      exact hfill.send (hstate.trans (h.state.resolve_left hconnecting))

theorem SafeInv.head (h : SafeInv e) (haborted : e.aborted = false)
    (hpolled : e.polled = true) {demux : δ}
    (hok : HeadSafe e (.head demux env)) : SafeInv (e.head demux env) := by
  have hmapped : SafeInv (e.mapDemux fun _ => demux) :=
    h.congr rfl rfl rfl rfl rfl rfl rfl Iff.rfl
  rcases hok with hc | ⟨hs, hne, hstuck⟩
  · have hrun : Running (e.mapDemux fun _ => demux) :=
      hmapped.running haborted hpolled (.inr hc)
    exact hrun.inEvent (.inr hc)
  · have hquiet := hmapped.decode_stuck hne hstuck
    unfold BpTcpEngine.head BpTcpEngine.inEvent
    rw [if_neg, if_neg]
    · exact hquiet
    · exact hne
    · have hs' : (e.mapDemux fun _ => demux).state = .shuttingDown := hs
      simp [hs']

theorem SafeInv.revive (h : SafeInv e) (haborted : e.aborted = false)
    (hpolled : e.polled = true) (mux : μ) : SafeInv (e.revive mux env) := by
  have hmapped : SafeInv (e.mapMux fun _ => mux) :=
    h.congr rfl rfl rfl rfl rfl rfl rfl Iff.rfl
  unfold BpTcpEngine.revive
  dsimp only
  split
  · next hc =>
      have hrun := hmapped.running haborted hpolled (.inr hc.1)
      exact (hrun.pollerOp _).outEvent
  · exact hmapped

/-- Every event, and every command where it does no harm, keeps the engine in
its place and makes no stray call. -/
theorem SafeInv.step (h : SafeInv e) {act : EngineAct μ δ}
    (hok : HeadSafe e act) (hs : step e act = some e') : SafeInv e' := by
  obtain ⟨haborted, hs⟩ := Step.of_step hs
  cases hs with
  | register hp => exact h.registerEvent haborted hp
  | inEvent hreg =>
      exact (h.running_of_registered haborted hreg).inEvent (.inl rfl)
  | outEvent hreg => exact (h.running_of_registered haborted hreg).outEvent
  | timer ht => exact h.timerEvent haborted
  | head hp => exact h.head haborted hp hok
  | revive hp => exact h.revive haborted hp _
  | sendTo hp => exact h.sendTo haborted hp _
  | receiveFrom hp => exact h.receiveFrom haborted hp _
  | pipes => exact h.congr rfl rfl rfl rfl rfl rfl rfl Iff.rfl

/-! ## The history of calls grows -/

section Growth

theorem kept_log (l : List Io) :
    Kept fun e : BpTcpEngine μ δ => l <+: e.log where
  aside h haside := h.trans haside.log
  state _ h _ := h
  encode h := h
  decode _ h := h
  flush h := h
  discard {e} h := by
    unfold discard
    split
    · exact h
    · exact h
  shut h := h

/-- `in_event` reads the socket in the state the engine is in. -/
theorem log_receive (e : BpTcpEngine μ δ) (env : EngineEnv) :
    ∃ result, e.log ++ [.read e.state e.fd result] <+:
      (e.receive env).log := by
  unfold receive
  split
  · refine ⟨none, (kept_log _).error ?_ env⟩
    exact List.prefix_refl _
  · next bytes hbytes =>
      refine ⟨some (bytes.take e.readbufSize), (kept_log _).decodeBuffer ?_ false⟩
      exact List.prefix_refl _

omit [Mux μ] in
/-- A decoder that gets unstuck makes the engine poll for input again. -/
theorem log_decode_unstuck (hlt : e.readPos < e.readSize)
    (hall : e.readPos +
      (e.decoder.write (e.readbuf.drop e.readPos.toNat)).2 = e.readSize) :
    e.log ++ [.poller .setPollin e.handle e.registered] <+:
      (e.decode true).log := by
  have hrepoll : ∀ e' : BpTcpEngine μ δ, e'.readPos = e'.readSize →
      e'.repoll true = e'.pollerOp .setPollin := by
    intro e' he
    rw [repoll, if_pos rfl, if_pos he]
  unfold decode
  rw [if_pos hlt]
  dsimp only
  rw [hrepoll _ hall]
  split
  · exact List.prefix_refl _
  · exact List.prefix_refl _

end Growth

theorem log_step {act : EngineAct μ δ} (hs : step e act = some e') :
    e.log <+: e'.log := by
  obtain ⟨_, hs⟩ := Step.of_step hs
  have hself := List.prefix_refl e.log
  have hkept := kept_log (μ := μ) (δ := δ) e.log
  cases hs with
  | register hp => exact hkept.registerEvent hself _
  | inEvent hreg => exact hkept.inEvent hself _ _
  | outEvent hreg => exact hkept.outEvent hself _
  | timer ht => exact hkept.timerEvent hself _
  | head hp => exact hkept.inEvent (e := e.mapDemux _) hself _ _
  | @revive mux env hp => exact hkept.revive mux hself env
  | sendTo hp =>
      unfold sendTo
      dsimp only
      split
      · exact hkept.pollerOp hself .setPollin
      · exact hself
  | @receiveFrom mux hp =>
      let e' := { e.mapMux fun _ => mux with pipeCnt := e.pipeCnt + 1 }
      have hout : e.log <+: (e'.pollerOp .setPollout).log :=
        hkept.pollerOp (e := e') hself _
      unfold receiveFrom
      dsimp only
      split
      · split
        · exact hkept.pollerOp hout _
        · exact hout
      · exact hself
  | pipes => exact hself

theorem IoSafe.of_run {ok : BpTcpEngine μ δ → EngineAct μ δ → Prop}
    (hrun : Run BpTcpEngine.step ok e as e') (h : e'.IoSafe) : e.IoSafe := by
  induction hrun with
  | nil e => exact h
  | cons _ hs _ ih =>
      exact fun call hcall => ih h call ((log_step hs).subset hcall)

theorem inEvent_receive {origin : Origin} (hnk : e.state ≠ .connecting)
    (heq : e.readPos = e.readSize) :
    e.inEvent origin env = e.receive env := by
  unfold inEvent
  rw [if_neg hnk, if_pos heq]

theorem inEvent_decode {origin : Origin} (hnk : e.state ≠ .connecting)
    (hne : e.readPos ≠ e.readSize) :
    e.inEvent origin env = e.decode (decide (e.readPos < e.readSize)) := by
  unfold inEvent
  rw [if_neg hnk, if_neg hne]

omit [Mux μ] [IDemux δ] in
/-- The history ends with an unsafe call, or did so before it grew. -/
theorem not_safe_of_log {l : List Io} {call : Io} (hcall : ¬ call.Safe)
    (hlog : l ++ [call] <+: e.log) : ¬ e.IoSafe := by
  intro hsafe
  apply hcall
  apply hsafe
  exact hlog.subset (List.mem_append_right _ (List.mem_singleton.mpr rfl))

/-- Anywhere else `head` makes a stray call. -/
theorem head_unsafe (h : SafeInv e) (haborted : e.aborted = false)
    {demux : δ} (hbad : ¬ HeadSafe e (.head demux env)) :
    ¬ (e.head demux env).IoSafe := by
  have hplace := h.place haborted
  have hread : e.state ≠ .connected → e.state ≠ .connecting →
      e.readPos = e.readSize → ¬ (e.head demux env).IoSafe := by
    intro hnc hnk heq
    have hhead : e.head demux env =
        (e.mapDemux fun _ => demux).receive env :=
      inEvent_receive hnk heq
    obtain ⟨result, hlog⟩ := log_receive (e.mapDemux fun _ => demux) env
    rw [← hhead] at hlog
    apply not_safe_of_log _ hlog
    intro hsafe
    exact hnc hsafe.1
  cases hs : e.state with
  | connected => exact (hbad (.inl hs)).elim
  | connecting =>
      have hlog : e.log ++ [Io.assertSocketError .head] <+:
          (e.head demux env).log := by
        unfold BpTcpEngine.head inEvent
        rw [if_pos (show (e.mapDemux fun _ => demux).state = _ from hs)]
        dsimp only
        split
        · apply (kept_log _).error
          exact List.prefix_refl _
        · exact List.prefix_refl _
      exact not_safe_of_log (by simp [Io.Safe]) hlog
  | waitingForReconnect =>
      exact hread (by simp [hs]) (by simp [hs]) (hplace.waiting hs).2
  | shuttingDown =>
      have hnk : e.state ≠ .connecting := by simp [hs]
      by_cases heq : e.readPos = e.readSize
      · exact hread (by simp [hs]) hnk heq
      · -- The bytes left over are decoded to the end, and the engine asks the
        -- poller for more of them.
        have hstuck : ¬ (e.readPos < e.readSize →
            e.readPos + ((e.mapDemux fun _ => demux).decoder.write
              (e.readbuf.drop e.readPos.toNat)).2 ≠ e.readSize) :=
          fun hstuck => hbad (.inr ⟨hs, heq, hstuck⟩)
        rw [Classical.not_imp, Classical.not_not] at hstuck
        obtain ⟨hlt, hall⟩ := hstuck
        have hhead : e.head demux env =
            (e.mapDemux fun _ => demux).decode true := by
          have hin : e.head demux env = (e.mapDemux fun _ => demux).decode
              (decide (e.readPos < e.readSize)) :=
            inEvent_decode hnk heq
          rw [decide_eq_true hlt] at hin
          exact hin
        have hlog := log_decode_unstuck (e := e.mapDemux fun _ => demux)
          hlt hall
        rw [← hhead] at hlog
        have hreg := (hplace.shuttingDown hs).registered
        apply not_safe_of_log _ hlog
        show ¬ e.registered = some e.handle
        simp [hreg]

/-! ## Runs -/

/-- The two constructors. -/
inductive Created : BpTcpEngine μ δ → Prop where
  | connecter (writebufSize readbufSize : Nat) (mux : μ) (demux : δ)
      (fd : Option Nat) (handle : Nat) :
      Created (connecter writebufSize readbufSize mux demux fd handle)
  | accepted (writebufSize readbufSize : Nat) (mux : μ) (demux : δ) (fd : Nat)
      (handle : Nat) :
      Created (accepted writebufSize readbufSize mux demux fd handle)

omit [Mux μ] [IDemux δ] in
theorem SafeInv.created (h : Created e) : SafeInv e := by
  cases h with
  | connecter =>
      exact
        { io := by simp [IoSafe, connecter, create]
          place := fun _ =>
            { fresh := fun _ => ⟨rfl, .inl rfl, rfl⟩
              up := by simp [connecter, create]
              waiting := by simp [connecter, create]
              shuttingDown := by simp [connecter, create] } }
  | accepted =>
      exact
        { io := by simp [IoSafe, accepted, create]
          place := fun _ =>
            { fresh := fun _ => ⟨rfl, .inr rfl, rfl⟩
              up := by simp [accepted, create]
              waiting := by simp [accepted, create]
              shuttingDown := by simp [accepted, create] } }

/-- In a run without stray calls every `head` did no harm. -/
theorem headSafe_of_ioSafe (h : SafeInv e)
    (hrun : Run BpTcpEngine.step Any e as e') (hsafe : e'.IoSafe) :
    Run BpTcpEngine.step HeadSafe e as e' := by
  induction hrun with
  | nil e => exact .nil e
  | @cons e e₁ e' act as _ hs hrest ih =>
      have hok : HeadSafe e act := by
        obtain ⟨haborted, hstep⟩ := Step.of_step hs
        cases hstep with
        | head hp =>
            apply Classical.byContradiction
            intro hbad
            exact head_unsafe h haborted hbad (IoSafe.of_run hrest hsafe)
        | _ => trivial
      exact .cons hok hs (ih (h.step hok hs) hsafe)

/-- A run in which no `head` does harm makes no stray call. -/
theorem ioSafe_of_headSafe {e₀ : BpTcpEngine μ δ} (h₀ : Created e₀)
    (hrun : Run step HeadSafe e₀ as e) : e.IoSafe := by
  have hsafe : SafeInv e :=
    hrun.invariant (fun _ _ _ hI hok hs => SafeInv.step hI hok hs)
      (SafeInv.created h₀)
  exact hsafe.io

/-- `head` arrives in `engine_connected`. -/
def HeadConnected (e : BpTcpEngine μ δ) : EngineAct μ δ → Prop
  | .head _ _ => e.state = .connected
  | _ => True

/-- It is enough that `in_event` is called by `head` as `out_event` is by
`revive`: in the connected state. -/
theorem ioSafe_of_headConnected {e₀ : BpTcpEngine μ δ} (h₀ : Created e₀)
    (hrun : Run step HeadConnected e₀ as e) : e.IoSafe := by
  apply ioSafe_of_headSafe h₀
  refine hrun.mono fun e act hok => ?_
  cases act with
  | head demux env => exact .inl hok
  | _ => trivial

/-- For every run of an engine: the socket is read and written only in the
connected state with a file descriptor, poller operations go to the registered
handle, and the assertion on `socket_error` in `in_event` is reached from the
poller, if and only if every `head` arrives where it does no harm. -/
theorem io_safe_iff {e₀ : BpTcpEngine μ δ} (h₀ : Created e₀)
    {as : List (EngineAct μ δ)} (hrun : Run step Any e₀ as e) :
    e.IoSafe ↔ Run step HeadSafe e₀ as e := by
  constructor
  · intro hsafe
    exact headSafe_of_ioSafe (SafeInv.created h₀) hrun hsafe
  · exact ioSafe_of_headSafe h₀

instance (act : EngineAct μ δ) : Decidable (HeadSafe e act) := by
  cases act <;> unfold HeadSafe <;> infer_instance

/-- The socket gives `read`, takes everything, and fails at nothing. -/
def calm (read : List UInt8) : EngineEnv :=
  { read := some read, write := some 8, socketError := false, reopen := some 4,
    handle := 7, handlerOk := true }

/-- The connection is broken. -/
def broken : EngineEnv :=
  { read := none, write := none, socketError := false, reopen := none,
    handle := 7, handlerOk := true }

/-- A connected engine gets stuck on an empty message, and a `head` that makes
room lets it go on with the bytes left over. -/
theorem io_safe_iff_unstuck :
    ∃ e : BpTcpEngine (List Message) Nat,
      Run step Any (connecter 8 8 [] 0 (some 3) 0)
        [.register (calm []), .outEvent (calm []), .inEvent (calm [0, 1, 9]),
          .head 5 (calm [])] e ∧
      e.decoder.derived.pushed = [[], [9]] ∧ e.IoSafe := by
  have hsafe : ∃ e : BpTcpEngine (List Message) Nat,
      Run step HeadSafe (connecter 8 8 [] 0 (some 3) 0)
        [.register (calm []), .outEvent (calm []), .inEvent (calm [0, 1, 9]),
          .head 5 (calm [])] e ∧
      e.decoder.derived.pushed = [[], [9]] :=
    Run.of_exec_any (by decide +kernel)
  obtain ⟨e, hrun, hpushed⟩ := hsafe
  have hany := hrun.mono fun _ _ _ => trivial
  exact ⟨e, hany, hpushed,
    (io_safe_iff (.connecter 8 8 [] 0 (some 3) 0) hany).mpr hrun⟩

/-- Three runs in which `head` finds the engine not connected.  While it is
connecting, the assertion on `socket_error` is reached, and fails when the
connection is merely not established yet.  While it waits to reconnect, the
socket it does not have is read.  While it is shutting down, bytes of the
closed connection are decoded and a handle is used that is not registered. -/
theorem head_while_not_connected :
    (∃ e : BpTcpEngine (List Message) Nat,
      Run step Any (connecter 8 8 [] 0 (some 3) 0)
        [.register (calm []), .head 1 (calm [])] e ∧
      .assertSocketError .head ∈ e.log ∧ e.aborted = true) ∧
    (∃ e : BpTcpEngine (List Message) Nat,
      Run step Any (connecter 8 8 [] 0 none 0)
        [.register (calm []), .head 1 broken] e ∧
      .read .waitingForReconnect none none ∈ e.log) ∧
    (∃ e : BpTcpEngine (List Message) Nat,
      Run step Any (accepted 8 8 [[9]] 0 3 0)
        [.register (calm []), .inEvent (calm [0, 0]), .outEvent broken,
          .head 1 (calm [])] e ∧
      .poller .setPollin 7 none ∈ e.log) :=
  ⟨Run.of_exec_any (by decide +kernel), Run.of_exec_any (by decide +kernel),
    Run.of_exec_any (by decide +kernel)⟩

end BpTcpEngine

end ZeroMQ
