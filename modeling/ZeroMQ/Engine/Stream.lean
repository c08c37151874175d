import ZeroMQ.Codec.RoundTrip
import ZeroMQ.Engine.Safety

/-!
# The byte streams of an engine

What an engine does to the bytes of one connection.  While the connection
lasts, the bytes its socket accepts, followed by those it still holds, are the
encoding of the messages it pulls; and the bytes it reads are those its decoder
has consumed, followed by those it still holds.  When the connection breaks,
all that is held is forgotten together, so that the next one starts clean.

## Main definitions

* `Flow` — the connection goes on.
* `Still` — nothing passes through the engine.
* `Quiet` — nothing passes, and the engine holds what it held.
* `Clean` — the engine holds nothing of a connection.

## Main results

* `error_rests` — an engine that tries again after an error is clean.
* `Live.passed`, `StreamInv.rests` — a handler lets the streams of a connection
  flow until it breaks, and without a connection nothing passes.
-/

namespace ZeroMQ

/-- The bytes a call has sent. -/
def Io.sent : Io → List UInt8
  | .write _ _ data (some n) => data.take n
  | _ => []

/-- The bytes a call has read. -/
def Io.got : Io → List UInt8
  | .read _ _ (some bytes) => bytes
  | _ => []

namespace BpTcpEngine

open ZeroMQ.Lib

variable {μ δ : Type}

/-- All bytes the socket has accepted. -/
def sent (e : BpTcpEngine μ δ) : List UInt8 := e.log.flatMap Io.sent

/-- All bytes read from the socket. -/
def got (e : BpTcpEngine μ δ) : List UInt8 := e.log.flatMap Io.got

/-- All messages pulled from the mux. -/
def pulled (e : BpTcpEngine μ δ) : List Message := e.encoder.derived.pulled

/-- All messages pushed to the demux. -/
def pushed (e : BpTcpEngine μ δ) : List Message := e.decoder.derived.pushed

/-- The bytes of pulled messages that have not been sent. -/
def outbound (e : BpTcpEngine μ δ) : List UInt8 :=
  e.writebuf.drop e.writePos ++ e.encoder.pending

/-- The bytes read that the decoder has not consumed. -/
def inbound (e : BpTcpEngine μ δ) : List UInt8 :=
  if e.readPos < e.readSize then e.readbuf.drop e.readPos.toNat else []

/-- The cursors of the read buffer are in range while it is in use. -/
def BufInv (e : BpTcpEngine μ δ) : Prop :=
  e.readPos < e.readSize → 0 ≤ e.readPos ∧ e.readSize = e.readbuf.length

/-- The engine takes part in a connection. -/
def Live (e : BpTcpEngine μ δ) : Prop :=
  e.polled = true ∧ e.state = .connected
  deriving Decidable

/-- The engine holds nothing of a connection. -/
structure Clean (e : BpTcpEngine μ δ) : Prop where
  outbound : e.outbound = []
  inbound : e.inbound = []
  buf : BufInv e
  decoder : e.decoder.Initial

variable {e e' e'' e₀ : BpTcpEngine μ δ} {env : EngineEnv}

theorem inbound_of_eq (h : e.readPos = e.readSize) : e.inbound = [] := by
  simp [inbound, h]

theorem bufInv_of_eq (h : e.readPos = e.readSize) : BufInv e := by
  intro hlt
  rw [h] at hlt
  exact absurd hlt (Int.lt_irrefl _)

/-! ## Nothing passes -/

/-- Nothing has passed through the engine. -/
structure Still (e e' : BpTcpEngine μ δ) : Prop where
  sent : e'.sent = e.sent
  got : e'.got = e.got
  pulled : e'.pulled = e.pulled
  pushed : e'.pushed = e.pushed

/-- Nothing has passed, and the engine holds the same as before. -/
structure Quiet (e e' : BpTcpEngine μ δ) : Prop extends Still e e' where
  outbound : e'.outbound = e.outbound
  inbound : e'.inbound = e.inbound
  buf : BufInv e → BufInv e'
  decoder : e'.decoder = { e.decoder with derived := e'.decoder.derived }

theorem Still.refl (e : BpTcpEngine μ δ) : Still e e := ⟨rfl, rfl, rfl, rfl⟩

theorem Still.trans (h : Still e e') (h' : Still e' e'') : Still e e'' :=
  ⟨h'.sent.trans h.sent, h'.got.trans h.got, h'.pulled.trans h.pulled,
    h'.pushed.trans h.pushed⟩

theorem Quiet.refl (e : BpTcpEngine μ δ) : Quiet e e :=
  ⟨.refl e, rfl, rfl, id, rfl⟩

theorem Quiet.trans (h : Quiet e e') (h' : Quiet e' e'') : Quiet e e'' where
  toStill := h.toStill.trans h'.toStill
  outbound := h'.outbound.trans h.outbound
  inbound := h'.inbound.trans h.inbound
  buf := h'.buf ∘ h.buf
  decoder := by
    have hsame : ∀ d : BpDecoderData δ, { e'.decoder with derived := d } =
        { e.decoder with derived := d } := by
      intro d
      rw [h.decoder]
    exact h'.decoder.trans (hsame _)

theorem Clean.quiet (h : Clean e) (hq : Quiet e e') : Clean e' where
  outbound := hq.outbound.trans h.outbound
  inbound := hq.inbound.trans h.inbound
  buf := hq.buf h.buf
  decoder := by
    rw [hq.decoder]
    exact h.decoder

theorem Quiet.io (h : Quiet e₀ e) {call : Io} (hs : call.sent = [])
    (hg : call.got = []) : Quiet e₀ (e.io call) := by
  apply h.trans
  have hsent : (e.io call).sent = e.sent := by
    simp [BpTcpEngine.sent, BpTcpEngine.io, hs]
  have hgot : (e.io call).got = e.got := by
    simp [BpTcpEngine.got, BpTcpEngine.io, hg]
  exact ⟨⟨hsent, hgot, rfl, rfl⟩, rfl, rfl, id, rfl⟩

theorem Quiet.pollerOp (h : Quiet e₀ e) (op : PollerOp) :
    Quiet e₀ (e.pollerOp op) :=
  h.io rfl rfl

/-- The rest of the engine: its place in the poller, its state and its
pipes. -/
theorem Quiet.place (h : Quiet e₀ e) (pipeCnt : Nat) (state : EngineState)
    (fd : Option Nat) (handle : Nat) (polled : Bool) (registered : Option Nat)
    (timers : Nat) (aborted : Bool) :
    Quiet e₀
      { e with
        pipeCnt := pipeCnt, state := state, fd := fd, handle := handle,
        polled := polled, registered := registered, timers := timers,
        aborted := aborted } :=
  h.trans ⟨⟨rfl, rfl, rfl, rfl⟩, rfl, rfl, id, rfl⟩

theorem Quiet.mapMux (h : Quiet e₀ e) (f : μ → μ) : Quiet e₀ (e.mapMux f) :=
  h.trans ⟨⟨rfl, rfl, rfl, rfl⟩, rfl, rfl, id, rfl⟩

theorem Quiet.mapDemux (h : Quiet e₀ e) (f : δ → δ) :
    Quiet e₀ (e.mapDemux f) :=
  h.trans ⟨⟨rfl, rfl, rfl, rfl⟩, rfl, rfl, id, rfl⟩

theorem Quiet.abort (h : Quiet e₀ e) : Quiet e₀ e.abort :=
  h.place _ _ _ _ _ _ _ _

theorem Quiet.rmFd_close (h : Quiet e₀ e) : Quiet e₀ e.rmFd.close := by
  have hrm : Quiet e₀ e.rmFd := (h.pollerOp .rmFd).place _ _ _ _ _ _ _ _
  unfold close
  split
  · exact hrm.abort
  · exact hrm.place _ _ _ _ _ _ _ _

theorem Quiet.waitForReconnect (h : Quiet e₀ e) :
    Quiet e₀ e.waitForReconnect :=
  h.place _ _ _ _ _ _ _ _

theorem Quiet.reopen (h : Quiet e₀ e) : Quiet e₀ (e.reopen env) := by
  unfold BpTcpEngine.reopen
  split
  · split
    · exact h.waitForReconnect
    · next fd hfd =>
        have hadded : Quiet e₀ (addFd { e with fd := some fd } env.handle) :=
          h.place _ _ _ _ _ _ _ _
        exact (hadded.pollerOp .setPollout).place _ _ _ _ _ _ _ _
  · exact h.abort

theorem Quiet.registerEvent (h : Quiet e₀ e) :
    Quiet e₀ (e.registerEvent env) := by
  unfold BpTcpEngine.registerEvent
  dsimp only
  split
  · exact h.place _ _ _ _ _ _ _ _
  · have hadded : Quiet e₀ (addFd { e with polled := true } env.handle) :=
      h.place _ _ _ _ _ _ _ _
    split
    · exact hadded.pollerOp _
    · split
      · exact hadded.pollerOp _
      · exact hadded

theorem Quiet.sendTo (h : Quiet e₀ e) (demux : δ) :
    Quiet e₀ (e.sendTo demux) := by
  have hcounted : Quiet e₀ { e with pipeCnt := e.pipeCnt + 1 } :=
    h.place _ _ _ _ _ _ _ _
  unfold BpTcpEngine.sendTo
  dsimp only
  split
  · exact (hcounted.pollerOp _).mapDemux _
  · exact hcounted.mapDemux _

theorem Quiet.receiveFrom (h : Quiet e₀ e) (mux : μ) :
    Quiet e₀ (e.receiveFrom mux) := by
  have hcounted : Quiet e₀
      { e.mapMux fun _ => mux with pipeCnt := e.pipeCnt + 1 } :=
    (h.mapMux _).place _ _ _ _ _ _ _ _
  unfold BpTcpEngine.receiveFrom
  dsimp only
  split
  · split
    · exact (hcounted.pollerOp _).pollerOp _
    · exact hcounted.pollerOp _
  · exact hcounted

theorem Quiet.repoll (h : Quiet e₀ e) (stuck : Bool) :
    Quiet e₀ (e.repoll stuck) := by
  unfold BpTcpEngine.repoll
  split <;> split
  · exact h.pollerOp _
  · exact h
  · exact h.pollerOp _
  · exact h

theorem Quiet.connected [Mux μ] (h : Quiet e₀ e) : Quiet e₀ e.connected := by
  unfold BpTcpEngine.connected
  dsimp only
  split <;> split
  · exact ((h.pollerOp _).pollerOp _).place _ _ _ _ _ _ _ _
  · exact (h.pollerOp _).place _ _ _ _ _ _ _ _
  · exact (h.pollerOp _).place _ _ _ _ _ _ _ _
  · exact h.place _ _ _ _ _ _ _ _

/-! ## A break -/

/-- Nothing has passed, and unless the engine has stopped for good it holds
nothing. -/
structure Rests (e e' : BpTcpEngine μ δ) : Prop where
  still : Still e e'
  clean : e'.aborted = false → e'.state ≠ .shuttingDown → Clean e'

theorem Quiet.rests (hq : Quiet e e') (h : Clean e) : Rests e e' :=
  ⟨hq.toStill, fun _ _ => h.quiet hq⟩

theorem dropSocket_rests (hpend : e.encoder.pending = [])
    (hdec : e.decoder.Initial) : Rests e e.dropSocket := by
  have hclose := (Quiet.refl e).rmFd_close
  have hencoder := (Aside.rmFd_close e).encoder
  exact
    { still := ⟨hclose.sent, hclose.got, hclose.pulled, hclose.pushed⟩
      clean := fun _ _ =>
        { outbound := by
            simp [outbound, dropSocket, hencoder, hpend]
          inbound := inbound_of_eq rfl
          buf := bufInv_of_eq rfl
          decoder := by
            show BpDecoder.Initial e.rmFd.close.decoder
            rw [hclose.decoder]
            exact hdec } }

theorem Rests.quiet (h : Rests e e') (hq : Quiet e' e'')
    (haborted : e'.aborted = false)
    (hstate : e'.state ≠ .shuttingDown) : Rests e e'' where
  still := h.still.trans hq.toStill
  clean _ _ := (h.clean haborted hstate).quiet hq

theorem reconnect_rests (hpend : e.encoder.pending = [])
    (hdec : e.decoder.Initial)
    (hstate : e.state = .connecting ∨ e.state = .connected) :
    Rests e (e.reconnect env) := by
  have hdrop := dropSocket_rests hpend hdec
  have hsame : e.dropSocket.state ≠ .shuttingDown := by
    have he := (Aside.dropSocket e).state
    rcases hstate with hs | hs
    · simp [he, hs]
    · simp [he, hs]
  unfold reconnect
  rw [if_pos (Or.symm hstate)]
  dsimp only
  split
  · exact hdrop
  · next haborted =>
      rw [Bool.not_eq_true] at haborted
      split
      · exact hdrop.quiet (Quiet.refl _).waitForReconnect haborted hsame
      · exact hdrop.quiet (Quiet.refl _).reopen haborted hsame

/-- Unless an assertion has failed, the engine has no connection. -/
def Off (e : BpTcpEngine μ δ) : Prop := e.aborted = false → ¬ Live e

theorem Off.of_aborted (h : e.aborted = true) : Off e := by
  intro haborted
  rw [h] at haborted
  cases haborted

theorem Off.of_state (h : e.state ≠ .connected) : Off e :=
  fun _ hlive => h hlive.2

theorem reopen_off (e : BpTcpEngine μ δ) (env : EngineEnv) :
    Off (e.reopen env) := by
  unfold reopen
  split
  · split
    · exact .of_state (by simp [waitForReconnect])
    · exact .of_state (by simp)
  · exact .of_aborted rfl

theorem reconnect_off (e : BpTcpEngine μ δ) (env : EngineEnv) :
    Off (e.reconnect env) := by
  unfold reconnect
  split
  · dsimp only
    split
    · next haborted => exact .of_aborted haborted
    · split
      · exact .of_state (by simp [waitForReconnect])
      · exact reopen_off _ env
  · exact reopen_off e env

section Codecs

variable [Mux μ] [IDemux δ]

theorem error_off (e : BpTcpEngine μ δ) (env : EngineEnv) :
    Off (e.error env) := by
  unfold error
  dsimp only
  split
  · exact .of_aborted rfl
  · split
    · exact reconnect_off _ env
    · unfold shutdown
      dsimp only
      split
      · next haborted => exact .of_aborted haborted
      · exact .of_state (by simp)

omit [Mux μ] in
/-- A gap notification, and a clean start for the codecs. -/
theorem discard_still (h : e.state = .connected ∨ Clean e) :
    Still e e.discard ∧ e.discard.encoder.pending = [] ∧
      e.discard.decoder.Initial ∧ e.discard.state = e.state := by
  unfold discard
  split
  · exact ⟨⟨rfl, rfl, rfl, rfl⟩, rfl, ⟨rfl, rfl, rfl⟩, rfl⟩
  · next hstate =>
      have hclean := h.resolve_left hstate
      have hpend := (List.append_eq_nil_iff.mp hclean.outbound).2
      exact ⟨.refl e, hpend, hclean.decoder, rfl⟩

/-- An error in a connection, or in an attempt to get one. -/
theorem error_rests (hstate : e.state = .connecting ∨ e.state = .connected)
    (h : e.state = .connected ∨ Clean e) : Rests e (e.error env) := by
  obtain ⟨hstill, hpend, hdec, hsame⟩ := discard_still h
  unfold error
  dsimp only
  split
  · refine ⟨hstill.trans (Quiet.refl _).abort.toStill, ?_⟩
    intro haborted
    cases haborted
  · split
    · have hrests : Rests e.discard (e.discard.reconnect env) :=
        reconnect_rests hpend hdec (hsame ▸ hstate)
      exact ⟨hstill.trans hrests.still, hrests.clean⟩
    · have hclose := (Quiet.refl e.discard).rmFd_close
      unfold shutdown
      dsimp only
      split
      · next habort =>
          refine ⟨hstill.trans hclose.toStill, ?_⟩
          intro haborted
          rw [habort] at haborted
          cases haborted
      · have hquiet := ((hclose.mapDemux IDemux.initialiseShutdown).mapMux
          Mux.initialiseShutdown).place
        refine ⟨hstill.trans (hquiet _ _ _ _ _ _ _ _).toStill, ?_⟩
        intro _ hne
        exact (hne rfl).elim

end Codecs

/-! ## A connection goes on -/

/-- The bytes sent, with those still held, encode the messages pulled; the
bytes read are consumed by the decoder or still held. -/
structure Flow (e e' : BpTcpEngine μ δ) : Prop where
  out : ∃ ms bytes, e'.pulled = e.pulled ++ ms ∧ e'.sent = e.sent ++ bytes ∧
    e.outbound ++ bpEncode ms = bytes ++ e'.outbound
  buf : BufInv e → BufInv e'
  into : BufInv e → ∃ bytes, e'.got = e.got ++ bytes ∧
    ∀ base seen, BpDecoder.Parsed base e.decoder seen →
      ∃ more, BpDecoder.Parsed base e'.decoder (seen ++ more) ∧
        e.inbound ++ bytes = more ++ e'.inbound
  pushed : e.pushed <+: e'.pushed

theorem Flow.of_quiet (h : Quiet e e') : Flow e e' where
  out := ⟨[], [], by simp [h.pulled], by simp [h.sent], by simp [h.outbound]⟩
  buf := h.buf
  into _ := by
    refine ⟨[], by simp [h.got], ?_⟩
    intro base seen hparsed
    refine ⟨[], ?_, by simp [h.inbound]⟩
    rw [List.append_nil, h.decoder]
    exact hparsed.derived h.pushed
  pushed := by simp only [h.pushed, List.prefix_refl]

theorem Flow.trans (h : Flow e e') (h' : Flow e' e'') : Flow e e'' where
  out := by
    obtain ⟨ms, bytes, hpulled, hsent, hout⟩ := h.out
    obtain ⟨ms', bytes', hpulled', hsent', hout'⟩ := h'.out
    refine ⟨ms ++ ms', bytes ++ bytes', ?_, ?_, ?_⟩
    · rw [hpulled', hpulled, List.append_assoc]
    · rw [hsent', hsent, List.append_assoc]
    · rw [bpEncode_append, ← List.append_assoc, hout, List.append_assoc,
        hout', List.append_assoc]
  buf := h'.buf ∘ h.buf
  into hbuf := by
    obtain ⟨bytes, hgot, hinto⟩ := h.into hbuf
    obtain ⟨bytes', hgot', hinto'⟩ := h'.into (h.buf hbuf)
    refine ⟨bytes ++ bytes', by rw [hgot', hgot, List.append_assoc], ?_⟩
    intro base seen hparsed
    obtain ⟨more, hmore, hin⟩ := hinto base seen hparsed
    obtain ⟨more', hmore', hin'⟩ := hinto' base _ hmore
    refine ⟨more ++ more', by rwa [← List.append_assoc], ?_⟩
    rw [← List.append_assoc, hin, List.append_assoc, hin', List.append_assoc]
  pushed := h.pushed.trans h'.pushed

theorem fill_flow [Mux μ] (e : BpTcpEngine μ δ) : Flow e e.fill := by
  unfold fill
  split
  · next hpos =>
      dsimp only
      obtain ⟨ms, hpulled, hpending⟩ := BpEncoder.read_spec e.encoder
        e.writebufSize
      generalize e.encoder.read e.writebufSize = r at hpulled hpending
      have hfilled : Flow e
          { e with encoder := r.1, writebuf := r.2.1, writePos := 0 } :=
        { out := by
            refine ⟨ms, [], hpulled, by simp [sent], ?_⟩
            simp [outbound, hpos, hpending]
          buf := id
          into := (Flow.of_quiet (Quiet.refl e)).into
          pushed := List.prefix_refl _ }
      split
      · exact hfilled.trans (.of_quiet ((Quiet.refl _).pollerOp _))
      · exact hfilled
  · exact .of_quiet (.refl e)

theorem Flow.write (e : BpTcpEngine μ δ) (n : Nat) :
    Flow e
      { e.io (.write e.state e.fd (e.writebuf.drop e.writePos) (some n)) with
        writePos := e.writePos + n } where
  out := by
    refine ⟨[], (e.writebuf.drop e.writePos).take n, ?_, ?_, ?_⟩
    · simp [BpTcpEngine.pulled, io]
    · simp [sent, io, Io.sent]
    · simp only [outbound, io, bpEncode_nil, List.append_nil,
        ← List.append_assoc, ← List.drop_drop, List.take_append_drop]
  buf := id
  into _ := by
    refine ⟨[], by simp [got, io, Io.got], ?_⟩
    intro base seen hparsed
    exact ⟨[], by simpa [io] using hparsed, List.append_nil _⟩
  pushed := List.prefix_refl _

theorem Flow.read (hempty : e.readPos = e.readSize) (bytes : List UInt8) :
    Flow e
      { e.io (.read e.state e.fd (some bytes)) with
        readbuf := bytes, readSize := bytes.length, readPos := 0 } where
  out := by
    refine ⟨[], [], ?_, ?_, ?_⟩
    · simp [BpTcpEngine.pulled, io]
    · simp [sent, io, Io.sent]
    · simp [outbound, io]
  buf _ _ := ⟨Int.le_refl 0, rfl⟩
  into _ := by
    refine ⟨bytes, by simp [got, io, Io.got], ?_⟩
    intro base seen hparsed
    refine ⟨[], by simpa [io] using hparsed, ?_⟩
    rw [inbound_of_eq hempty]
    cases bytes with
    | nil => simp [BpTcpEngine.inbound]
    | cons b bs => simp [BpTcpEngine.inbound]
  pushed := List.prefix_refl _

theorem Flow.consume [IDemux δ] (hlt : e.readPos < e.readSize) :
    let r := e.decoder.write (e.readbuf.drop e.readPos.toNat)
    Flow e { e with decoder := r.1, readPos := e.readPos + r.2 } := by
  intro r
  have hle : r.2 ≤ (e.readbuf.drop e.readPos.toNat).length :=
    Decoder.write_le _ _
  exact
    { out := ⟨[], [], by simp [BpTcpEngine.pulled], by simp [sent],
        by simp [outbound]⟩
      buf := by
        intro hbuf _
        obtain ⟨hpos, hsize⟩ := hbuf hlt
        exact ⟨by dsimp only; omega, hsize⟩
      into := by
        intro hbuf
        obtain ⟨hpos, hsize⟩ := hbuf hlt
        refine ⟨[], by simp [got], ?_⟩
        intro base seen hparsed
        refine ⟨_, BpDecoder.write_spec hparsed _, ?_⟩
        rw [List.length_drop] at hle
        have hin : e.inbound = e.readbuf.drop e.readPos.toNat := if_pos hlt
        rw [List.append_nil, hin]
        show _ = List.take r.2 _ ++ BpTcpEngine.inbound
          { e with decoder := r.1, readPos := e.readPos + r.2 }
        unfold BpTcpEngine.inbound
        dsimp only
        split
        · have htoNat : (e.readPos + r.2).toNat = e.readPos.toNat + r.2 := by
            omega
          rw [htoNat, ← List.drop_drop, List.take_append_drop]
        · rw [List.append_nil, List.take_of_length_le]
          rw [List.length_drop]
          omega
      pushed := BpDecoder.pushed_write _ _ }

theorem decode_flow [IDemux δ] (e : BpTcpEngine μ δ) (stuck : Bool) :
    Flow e (e.decode stuck) := by
  unfold decode
  split
  · next hlt =>
      have hmoved := Flow.consume hlt
      dsimp only at hmoved ⊢
      split
      · exact hmoved.trans (.of_quiet
          (((Quiet.refl _).repoll stuck).mapDemux _))
      · exact hmoved.trans (.of_quiet ((Quiet.refl _).repoll stuck))
  · exact .of_quiet (.refl e)

/-! ## The handlers -/

/-- What a handler does in a connection: it goes on, or it goes on for a while
and then breaks. -/
inductive Passed (e e' : BpTcpEngine μ δ) : Prop where
  | on (hflow : Flow e e') (hlive : Live e')
  | broken {e₁ : BpTcpEngine μ δ} (hflow : Flow e e₁) (hrests : Rests e₁ e')
      (hoff : Off e')

theorem Passed.of_flow (hflow : Flow e e') (h : Passed e' e'') :
    Passed e e'' := by
  cases h with
  | on hflow' hlive => exact .on (hflow.trans hflow') hlive
  | broken hflow' hrests hoff =>
      exact .broken (hflow.trans hflow') hrests hoff

theorem Passed.of_quiet (hq : Quiet e e') (hlive : Live e') : Passed e e' :=
  .on (.of_quiet hq) hlive

theorem Passed.of_abort (hq : Quiet e e') (haborted : e'.aborted = true) :
    Passed e e' := by
  refine .broken (.of_quiet (.refl e)) ⟨hq.toStill, ?_⟩ (.of_aborted haborted)
  intro hnot
  rw [haborted] at hnot
  cases hnot

/-- Where the connection has got to: the engine itself if it has not
broken. -/
theorem Passed.flow (h : Passed e e') :
    ∃ e₁, Flow e e₁ ∧ Still e₁ e' ∧
      (e'.aborted = false → Live e' → e' = e₁) := by
  cases h with
  | on hflow hlive => exact ⟨e', hflow, .refl e', fun _ _ => rfl⟩
  | @broken e₁ hflow hrests hoff =>
      refine ⟨e₁, hflow, hrests.still, ?_⟩
      intro haborted hlive
      exact (hoff haborted hlive).elim

theorem decode_live [IDemux δ] (h : Live e) (stuck : Bool) :
    Live (e.decode stuck) := by
  have hrepoll : ∀ {e' : BpTcpEngine μ δ}, Live e' → Live (e'.repoll stuck) := by
    intro e' h'
    unfold repoll
    split <;> split
    · exact h'
    · exact h'
    · exact h'
    · exact h'
  unfold decode
  split
  · dsimp only
    split
    · exact hrepoll h
    · exact hrepoll h
  · exact h

theorem fill_live [Mux μ] (h : Live e) : Live e.fill := by
  unfold fill
  split
  · dsimp only
    split
    · exact h
    · exact h
  · exact h

section Handlers

variable [Mux μ] [IDemux δ] {act : EngineAct μ δ}

theorem error_passed (hflow : Flow e₀ e) (h : Live e) :
    Passed e₀ (e.error env) :=
  .broken hflow (error_rests (.inr h.2) (.inl h.2)) (error_off e env)

theorem receive_passed (h : Live e) (hempty : e.readPos = e.readSize) :
    Passed e (e.receive env) := by
  unfold receive
  split
  · have hquiet : Quiet e
        { e.io (.read e.state e.fd none) with readSize := -1, readPos := 0 } :=
      ((Quiet.refl e).io rfl rfl).trans
        { sent := rfl
          got := rfl
          pulled := rfl
          pushed := rfl
          outbound := rfl
          inbound := (inbound_of_eq (e := e.io _) hempty).symm
          buf := fun _ hlt => nomatch hlt
          decoder := rfl }
    exact error_passed (.of_quiet hquiet) h
  · next bytes hbytes =>
      dsimp only
      refine .of_flow (Flow.read hempty (bytes.take e.readbufSize)) ?_
      refine .on (decode_flow _ false) (decode_live ?_ false)
      exact h

theorem inEvent_passed (h : Live e) (origin : Origin) :
    Passed e (e.inEvent origin env) := by
  unfold inEvent
  rw [if_neg (by simp [h.2])]
  split
  · next hempty => exact receive_passed h hempty
  · exact .on (decode_flow e _) (decode_live h _)

theorem send_passed (h : Live e) : Passed e (e.send env) := by
  unfold send
  split
  · dsimp only
    split
    · exact error_passed (.of_quiet ((Quiet.refl e).io rfl rfl)) h
    · exact .on (Flow.write e _) h
  · exact .of_quiet (.refl e) h

theorem outEvent_passed (h : Live e) : Passed e (e.outEvent env) := by
  unfold outEvent
  rw [if_neg (by simp [h.2])]
  exact .of_flow (fill_flow e) (send_passed (fill_live h))

theorem revive_passed (h : Live e) (mux : μ) :
    Passed e (e.revive mux env) := by
  have hquiet := (Quiet.refl e).mapMux fun _ => mux
  unfold revive
  dsimp only
  split
  · exact .of_flow (.of_quiet (hquiet.pollerOp _)) (outEvent_passed h)
  · exact .of_quiet hquiet h

/-! ## Every event and command -/

/-- What the streams need of an engine at rest: unless it has stopped for good
it is clean without a connection, and has its buffer in order with one. -/
structure StreamInv (e : BpTcpEngine μ δ) : Prop where
  live : e.aborted = false → Live e → BufInv e
  idle : e.aborted = false → ¬ Live e → e.state ≠ .shuttingDown → Clean e

/-- `head` and `revive` arrive while the engine is connected. -/
def InConnection (e : BpTcpEngine μ δ) : EngineAct μ δ → Prop
  | .head _ _ => e.state = .connected
  | .revive _ _ => e.state = .connected
  | _ => True

instance (e : BpTcpEngine μ δ) (act : EngineAct μ δ) :
    Decidable (InConnection e act) :=
  match act with
  | .head _ _ | .revive _ _ => inferInstanceAs (Decidable (e.state = _))
  | .register _ | .inEvent _ | .outEvent _ | .timer _ | .sendTo _
  | .receiveFrom _ | .pipes _ _ => .isTrue trivial

omit [Mux μ] in
theorem InConnection.headSafe (h : InConnection e act) : HeadSafe e act := by
  cases act with
  | head demux env => exact .inl h
  | _ => trivial

/-- The streams of a connection flow until it breaks. -/
theorem Live.passed (h : Live e)
    (hs : step e act = some e') : Passed e e' := by
  obtain ⟨_, hs⟩ := Step.of_step hs
  have hself := Quiet.refl e
  cases hs with
  | register hp =>
      rw [h.1] at hp
      cases hp
  | inEvent _ => exact inEvent_passed h _
  | outEvent _ => exact outEvent_passed h
  | timer _ =>
      unfold timerEvent
      rw [if_neg (by simp [h.2])]
      exact .of_abort (hself.place _ _ _ _ _ _ _ _) rfl
  | head _ =>
      apply Passed.of_flow (.of_quiet (hself.mapDemux _))
      exact inEvent_passed (e := e.mapDemux _) h .head
  | revive _ => exact revive_passed h _
  | sendTo _ =>
      apply Passed.of_quiet (hself.sendTo _)
      unfold sendTo
      dsimp only
      split
      · exact h
      · exact h
  | receiveFrom _ =>
      apply Passed.of_quiet (hself.receiveFrom _)
      unfold receiveFrom
      dsimp only
      split
      · split
        · exact h
        · exact h
      · exact h
  | pipes => exact .of_quiet ((hself.mapMux _).mapDemux _) h

omit [Mux μ] [IDemux δ] in
theorem StreamInv.rests_of_quiet (h : StreamInv e)
    (haborted : e.aborted = false) (hlive : ¬ Live e) (hq : Quiet e e')
    (hstate : e'.state = e.state) : Rests e e' where
  still := hq.toStill
  clean _ hs := (h.idle haborted hlive (hstate ▸ hs)).quiet hq

theorem StreamInv.rests (h : StreamInv e)
    (hsafe : SafeInv e) (hok : InConnection e act) (hlive : ¬ Live e)
    (hs : step e act = some e') : Rests e e' := by
  obtain ⟨haborted, hs⟩ := Step.of_step hs
  have hself := Quiet.refl e
  have hidle := h.idle haborted hlive
  have hconnecting : e.registered ≠ none → e.state = .connecting := by
    intro hreg
    have hrun := hsafe.running_of_registered haborted hreg
    exact hrun.state.resolve_right fun hc => hlive ⟨hrun.polled, hc⟩
  cases hs with
  | register hp =>
      obtain ⟨_, hstate, _⟩ := (hsafe.place haborted).fresh hp
      apply hself.registerEvent.rests
      apply hidle
      rcases hstate with hstate | hstate
      · simp [hstate]
      · simp [hstate]
  | @inEvent env hreg =>
      have hstate := hconnecting hreg
      have hclean := hidle (by simp [hstate])
      have hasserted : Quiet e (e.io (.assertSocketError .poller)) :=
        hself.io rfl rfl
      unfold inEvent
      rw [if_pos hstate]
      dsimp only
      split
      · have hrests : Rests _ (error env (e.io _)) :=
          error_rests (.inl hstate) (.inr (hclean.quiet hasserted))
        exact ⟨hasserted.toStill.trans hrests.still, hrests.clean⟩
      · exact hasserted.abort.rests hclean
  | outEvent hreg =>
      have hstate := hconnecting hreg
      have hclean := hidle (by simp [hstate])
      unfold outEvent
      rw [if_pos hstate]
      split
      · exact error_rests (.inl hstate) (.inr hclean)
      · exact hself.connected.rests hclean
  | timer ht =>
      have hticked : Quiet e { e with timers := e.timers - 1 } :=
        hself.place _ _ _ _ _ _ _ _
      unfold timerEvent
      split
      · next hstate =>
          have hstate : e.state = .waitingForReconnect := hstate
          unfold reconnect
          rw [if_neg (by simp [hstate])]
          exact hticked.reopen.rests (hidle (by simp [hstate]))
      · exact ⟨hticked.toStill.trans (Quiet.refl _).abort.toStill,
          fun hnot => nomatch hnot⟩
  | head hp => exact (hlive ⟨hp, hok⟩).elim
  | revive hp => exact (hlive ⟨hp, hok⟩).elim
  | sendTo hp =>
      apply h.rests_of_quiet haborted hlive (hself.sendTo _)
      unfold sendTo
      dsimp only
      split
      · rfl
      · rfl
  | receiveFrom hp =>
      apply h.rests_of_quiet haborted hlive (hself.receiveFrom _)
      unfold receiveFrom
      dsimp only
      split
      · split
        · rfl
        · rfl
      · rfl
  | pipes =>
      exact h.rests_of_quiet haborted hlive
        ((hself.mapMux _).mapDemux _) rfl

omit [Mux μ] [IDemux δ] in
theorem Rests.streamInv (h : Rests e e') : StreamInv e' where
  live haborted hlive := (h.clean haborted (by simp [hlive.2])).buf
  idle haborted _ hstate := h.clean haborted hstate

omit [Mux μ] [IDemux δ] in
theorem Passed.streamInv (h : Passed e e') (hbuf : BufInv e) :
    StreamInv e' := by
  cases h with
  | on hflow hlive =>
      exact
        { live := fun _ _ => hflow.buf hbuf
          idle := fun _ hnot => (hnot hlive).elim }
  | broken _ hrests _ => exact hrests.streamInv

/-- An engine that has nothing behind it. -/
structure Fresh (e : BpTcpEngine μ δ) : Prop where
  clean : Clean e
  idle : ¬ Live e
  sent : e.sent = []
  got : e.got = []
  pulled : e.pulled = []
  pushed : e.pushed = []

omit [Mux μ] [IDemux δ] in
theorem Created.fresh (h : Created e) : Fresh e := by
  have hidle : ∀ {e : BpTcpEngine μ δ}, e.polled = false → ¬ Live e := by
    intro e hpolled hlive
    simp [Live, hpolled] at hlive
  cases h with
  | connecter | accepted =>
      exact ⟨⟨rfl, inbound_of_eq rfl, bufInv_of_eq rfl, ⟨rfl, rfl, rfl⟩⟩,
        hidle rfl, rfl, rfl, rfl, rfl⟩

omit [Mux μ] [IDemux δ] in
theorem Fresh.streamInv (h : Fresh e) : StreamInv e where
  live _ _ := h.clean.buf
  idle _ _ _ := h.clean

end Handlers

end BpTcpEngine

end ZeroMQ
