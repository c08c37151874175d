import ZeroMQ.Engine.Attachment
import ZeroMQ.Engine.Safety

/-!
# Messages an engine holds back

A message that the demux refuses stays in the decoder, complete, until the
decoder is called again.  The engine remembers that it is stuck only as
`read_pos < read_size`: when the refused message was the last thing in the read
buffer the two cursors are equal, and a `head` that makes room calls the decoder
only if the socket has something to read as well.

## Main definitions

* `BpDecoder.Held` — the decoder holds a complete message.
* `Releasing` — what a demux has to do with the room in its pipes.
* `Balancer` — the writers' ends of the pipes of a `load_balancer_t`.

## Main results

* `releasing_publisher`, `releasing_balancer` — both demuxes refuse a message
  only if some pipe has no room.
* `held_head_iff` — when a `head` leaves a message behind although there is room.
* `held_back_iff` — the same for every run.
-/

namespace ZeroMQ

open ZeroMQ.Lib

/-! ## `load_balancer_t` -/

/-- `load_balancer_t`, with the writers' ends of its pipes. -/
structure Balancer where
  pipes : List WriterEnd
  current : Nat
  deriving DecidableEq, Repr

namespace Balancer

/-- `load_balancer_t::write`, with so many pipes left to try. -/
def writeLoop : Nat → Balancer → Bool × Balancer
  | 0, d => (false, d)
  | i + 1, d =>
      match d.pipes[d.current]? with
      | none => (false, d)
      | some p =>
          if p.checkWrite then
            (true,
              { pipes := d.pipes.set d.current p.write
                current := (d.current + 1) % d.pipes.length })
          else
            writeLoop i { d with current := (d.current + 1) % d.pipes.length }

instance : IDemux Balancer where
  write d _ := writeLoop d.pipes.length d
  gap d := { d with pipes := d.pipes.map WriterEnd.gap }
  flush d := d
  initialiseShutdown d :=
    { d with pipes := d.pipes.map WriterEnd.terminateWriter }

/-- The balancer has pipes, and all of them are writable. -/
structure Writable (d : Balancer) : Prop where
  current : d.current < d.pipes.length
  room : ∀ p ∈ d.pipes, p.checkWrite = true

instance (d : Balancer) : Decidable d.Writable :=
  decidable_of_iff (d.current < d.pipes.length ∧
    ∀ p ∈ d.pipes, p.checkWrite = true)
    ⟨fun h => ⟨h.1, h.2⟩, fun h => ⟨h.current, h.room⟩⟩

theorem writeLoop_pipes {i : Nat} {d : Balancer}
    (h : (writeLoop i d).1 = false) : (writeLoop i d).2.pipes = d.pipes := by
  induction i generalizing d with
  | zero => rfl
  | succ i ih =>
      unfold writeLoop at h ⊢
      split
      · rfl
      · next p hp =>
          simp only [hp] at h
          by_cases hroom : p.checkWrite = true
          · rw [if_pos hroom] at h
            cases h
          · rw [if_neg hroom] at h ⊢
            exact ih h

/-- The first pipe that is tried takes the message if it can. -/
theorem writeLoop_refused {i : Nat} {d : Balancer}
    (h : (writeLoop (i + 1) d).1 = false) :
    ¬ (writeLoop (i + 1) d).2.Writable := by
  intro hw
  have hpipes := writeLoop_pipes h
  have hroom : ∀ p, d.pipes[d.current]? = some p → p.checkWrite = true := by
    intro p hp
    apply hw.room
    rw [hpipes]
    exact List.mem_of_getElem? hp
  unfold writeLoop at h hw
  split at h
  · next hnone =>
      rw [hnone] at hw
      exact absurd (List.getElem?_eq_none_iff.mp hnone)
        (Nat.not_le_of_lt hw.current)
  · next p hp =>
      rw [if_pos (hroom p hp)] at h
      cases h

end Balancer

/-- All pipes of a publisher are writable. -/
def Publisher.Writable (d : Publisher) : Prop :=
  ∀ p ∈ d.pipes, p.checkWrite = true
  deriving Decidable

/-! ## Demuxes and room -/

/-- A demux that refuses a message has a pipe without room; flushing makes no
room. -/
structure Releasing {δ : Type} [IDemux δ] (W : δ → Prop) : Prop where
  refused : ∀ d message, (IDemux.write d message).1 = false →
    ¬ W (IDemux.write d message).2
  flush : ∀ d, W (IDemux.flush d) → W d

theorem releasing_publisher : Releasing Publisher.Writable where
  refused d message h hw := by
    by_cases hall : d.pipes.all WriterEnd.checkWrite = true
    · have hwrite : IDemux.write d message =
          (true, ⟨d.pipes.map WriterEnd.write⟩) := if_pos hall
      rw [hwrite] at h
      cases h
    · have hwrite : IDemux.write d message = (false, d) := if_neg hall
      rw [hwrite] at hw
      exact hall (List.all_eq_true.mpr hw)
  flush _ h := h

theorem releasing_balancer : Releasing Balancer.Writable where
  refused d message h := by
    show ¬ (Balancer.writeLoop d.pipes.length d).2.Writable
    change (Balancer.writeLoop d.pipes.length d).1 = false at h
    cases hlen : d.pipes.length with
    | zero =>
        intro hw
        have hcurrent : d.current < d.pipes.length := hw.current
        omega
    | succ n =>
        rw [hlen] at h
        exact Balancer.writeLoop_refused h
  flush _ h := h

/-! ## The decoder -/

namespace BpDecoder

variable {δ : Type}

/-- All bytes of a message have been received, and it has not been pushed. -/
def Held (d : BpDecoder δ) : Prop := d.next = .messageReady ∧ d.toRead = 0
  deriving Decidable

theorem Initial.not_held {d : BpDecoder δ} (h : d.Initial) : ¬ d.Held := by
  intro hheld
  have hread := hheld.2
  rw [h.2.1] at hread
  cases hread

variable [IDemux δ] {W : δ → Prop}

theorem action_refused {st : BpDecoderState} {buf : List UInt8}
    {d d' : BpDecoderData δ} (h : action st buf d = (none, d')) :
    d'.demux = (IDemux.write d.demux buf).2 := by
  obtain ⟨rfl, hrefused, _⟩ := action_eq_none h
  simp only [action] at h
  split at h
  · next hwrite =>
      cases h
      rw [hwrite]
  · next hwrite =>
      rw [hwrite] at hrefused
      cases hrefused

/-- A decoder that holds a message after a call has offered it in that call. -/
theorem held_write (hW : Releasing W) {d : BpDecoder δ} {data : List UInt8}
    (h : (d.write data).1.Held) : ¬ W (d.write data).1.derived.demux := by
  rcases Decoder.write_cases fsm d data with ⟨_, hread⟩ | ⟨_, derived, hact⟩
  · exact absurd h.2 hread
  · obtain ⟨_, hrefused, _⟩ := action_eq_none hact
    have hdemux := action_refused hact
    show ¬ W (Decoder.write fsm d data).1.derived.demux
    rw [hdemux]
    exact hW.refused _ _ hrefused

end BpDecoder

/-! ## The engine -/

namespace BpTcpEngine

variable {μ δ : Type} [Mux μ] [IDemux δ] {e e' e₀ : BpTcpEngine μ δ}
  {env : EngineEnv} {W : δ → Prop} {as : List (EngineAct μ δ)}

/-- The decoder holds a complete message. -/
def Held (e : BpTcpEngine μ δ) : Prop := e.decoder.Held
  deriving Decidable

/-- All pipes of the demux are writable. -/
def HasRoom (W : δ → Prop) (e : BpTcpEngine μ δ) : Prop :=
  W e.decoder.derived.demux

instance [DecidablePred W] (e : BpTcpEngine μ δ) : Decidable (HasRoom W e) :=
  inferInstanceAs (Decidable (W e.decoder.derived.demux))

/-- `in_event` has bytes for the decoder, or finds the connection broken: some
bytes were left in the read buffer, or it is used up and `socket.read` returns
something other than 0. -/
def Gets (env : EngineEnv) (e : BpTcpEngine μ δ) : Prop :=
  e.readPos < e.readSize ∨ e.readPos = e.readSize ∧
    env.read.map (List.take e.readbufSize) ≠ some []
  deriving Decidable

omit [Mux μ] [IDemux δ] in
theorem decoder_reopen (e : BpTcpEngine μ δ) (env : EngineEnv) :
    (e.reopen env).decoder = e.decoder := by
  unfold BpTcpEngine.reopen
  split
  · split
    · rfl
    · rfl
  · rfl

omit [Mux μ] [IDemux δ] in
theorem decoder_reconnect (e : BpTcpEngine μ δ) (env : EngineEnv) :
    (e.reconnect env).decoder = e.decoder := by
  have hdrop := (Aside.dropSocket e).decoder
  unfold BpTcpEngine.reconnect
  dsimp only
  split
  · split
    · exact hdrop
    · split
      · exact hdrop
      · rw [decoder_reopen, hdrop]
  · exact decoder_reopen e env

theorem initial_shutdown (h : e.decoder.Initial) :
    e.shutdown.decoder.Initial := by
  have hclose := (Aside.rmFd_close e).decoder
  unfold BpTcpEngine.shutdown
  dsimp only
  split
  · rw [hclose]
    exact h
  · show e.rmFd.close.decoder.Initial
    rw [hclose]
    exact h

/-- When a connection breaks the decoder starts from the beginning. -/
theorem initial_error (hs : e.state = .connected) :
    (e.error env).decoder.Initial := by
  have hdiscard : e.discard.decoder.Initial := by
    unfold BpTcpEngine.discard
    rw [if_pos hs]
    exact ⟨rfl, rfl, rfl⟩
  unfold BpTcpEngine.error
  dsimp only
  split
  · exact hdiscard
  · split
    · rw [decoder_reconnect]
      exact hdiscard
    · exact initial_shutdown hdiscard

omit [Mux μ] in
/-- After the decoder has been called there is room only if nothing is
held. -/
theorem not_held_decode (hW : Releasing W) {stuck : Bool}
    (hlt : e.readPos < e.readSize) (hroom : HasRoom W (e.decode stuck)) :
    ¬ (e.decode stuck).Held := by
  intro hheld
  unfold BpTcpEngine.decode at hroom hheld
  rw [if_pos hlt] at hroom hheld
  dsimp only at hroom hheld
  split at hheld
  · next hsome =>
      rw [if_pos hsome] at hroom
      have hroom := hW.flush _ hroom
      change (repoll _ _).decoder.Held at hheld
      rw [(Aside.repoll _ stuck).decoder] at hroom hheld
      exact BpDecoder.held_write hW hheld hroom
  · next hnone =>
      rw [if_neg hnone] at hroom
      change (repoll _ _).decoder.Held at hheld
      unfold HasRoom at hroom
      rw [(Aside.repoll _ stuck).decoder] at hroom hheld
      exact BpDecoder.held_write hW hheld hroom

omit [Mux μ] in
theorem decode_idle {stuck : Bool} (hge : ¬ e.readPos < e.readSize) :
    e.decode stuck = e := by
  unfold BpTcpEngine.decode
  rw [if_neg hge]

theorem not_held_receive (hW : Releasing W) (hs : e.state = .connected)
    (hroom : HasRoom W (e.receive env)) :
    ¬ (e.receive env).Held ↔
      ¬ e.Held ∨ env.read.map (List.take e.readbufSize) ≠ some [] := by
  unfold BpTcpEngine.receive at hroom ⊢
  cases hread : env.read with
  | none =>
      simp only [Option.map_none, ne_eq, reduceCtorEq, not_false_eq_true,
        or_true, iff_true]
      apply BpDecoder.Initial.not_held
      apply initial_error
      exact hs
  | some bytes =>
      rw [hread] at hroom
      simp only [Option.map_some, ne_eq, Option.some.injEq] at hroom ⊢
      by_cases hempty : bytes.take e.readbufSize = []
      · rw [decode_idle (by simp [hempty])]
        simp [hempty, Held, io]
      · have hpos : (0 : Int) < (bytes.take e.readbufSize).length := by
          have := List.length_pos_iff.mpr hempty
          omega
        simp only [hempty, not_false_eq_true, or_true, iff_true]
        exact not_held_decode hW hpos hroom

/-- A `head` after which all pipes are writable leaves no message behind, if
and only if there was none or the decoder gets something to do. -/
theorem held_head_iff (hW : Releasing W) {demux : δ}
    (hs : e.state = .connected) (hroom : HasRoom W (e.head demux env)) :
    ¬ (e.head demux env).Held ↔ (e.Held → e.Gets env) := by
  have hnk : e.state ≠ .connecting := by
    rw [hs]
    decide
  have hor : (e.Held → e.Gets env) ↔ ¬ e.Held ∨ e.Gets env :=
    Decidable.imp_iff_not_or
  rw [hor]
  by_cases heq : e.readPos = e.readSize
  · have hhead : e.head demux env =
        (e.mapDemux fun _ => demux).receive env := inEvent_receive hnk heq
    rw [hhead] at hroom ⊢
    have hiff := not_held_receive (e := e.mapDemux fun _ => demux) hW hs hroom
    have hgets : e.Gets env ↔
        env.read.map (List.take e.readbufSize) ≠ some [] := by
      simp [Gets, heq]
    rw [hgets]
    exact hiff
  · have hhead : e.head demux env = (e.mapDemux fun _ => demux).decode
        (decide (e.readPos < e.readSize)) := inEvent_decode hnk heq
    rw [hhead] at hroom ⊢
    by_cases hlt : e.readPos < e.readSize
    · have hgets : e.Gets env := .inl hlt
      simp only [hgets, or_true, iff_true]
      exact not_held_decode hW hlt hroom
    · have hgets : ¬ e.Gets env := by
        simp [Gets, heq, hlt]
      rw [decode_idle (e := e.mapDemux fun _ => demux) hlt]
      simp only [hgets, or_false]
      exact Iff.rfl

/-! ## Runs -/

/-- A `head` that finds the engine connected, and after which all pipes are
writable, satisfies `P`. -/
def AtHead (W : δ → Prop)
    (P : BpTcpEngine μ δ → EngineEnv → BpTcpEngine μ δ → Prop)
    (e : BpTcpEngine μ δ) : EngineAct μ δ → Prop
  | .head demux env =>
      e.state = .connected → HasRoom W (e.head demux env) →
        P e env (e.head demux env)
  | _ => True

/-- In every run of an engine: whenever a `head` has been handled while
connected and all pipes of the demux are writable the decoder holds no complete
message, if and only if at each of these `head`s the decoder held none before,
or bytes were left in the read buffer, or the socket had something to read. -/
theorem held_back_iff (hW : Releasing W) :
    Run step (AtHead W fun _ _ e' => ¬ e'.Held) e₀ as e ↔
      Run step (AtHead W fun e env _ => e.Held → e.Gets env) e₀ as e := by
  have hiff : ∀ (e : BpTcpEngine μ δ) (act : EngineAct μ δ),
      AtHead W (fun _ _ e' => ¬ e'.Held) e act ↔
        AtHead W (fun e env _ => e.Held → e.Gets env) e act := by
    intro e act
    cases act with
    | head demux env =>
        constructor
        · intro h hs hroom
          exact (held_head_iff hW hs hroom).mp (h hs hroom)
        · intro h hs hroom
          exact (held_head_iff hW hs hroom).mpr (h hs hroom)
    | _ => exact Iff.rfl
  constructor
  · exact fun h => h.mono fun e act => (hiff e act).mp
  · exact fun h => h.mono fun e act => (hiff e act).mpr

instance [DecidablePred W]
    {P : BpTcpEngine μ δ → EngineEnv → BpTcpEngine μ δ → Prop}
    [∀ e env e', Decidable (P e env e')] (e : BpTcpEngine μ δ)
    (act : EngineAct μ δ) : Decidable (AtHead W P e act) :=
  match act with
  | .head demux env =>
      inferInstanceAs (Decidable
        (e.state = .connected → HasRoom W (e.head demux env) →
          P e env (e.head demux env)))
  | .register _ | .inEvent _ | .outEvent _ | .timer _ | .revive _ _
  | .sendTo _ | .receiveFrom _ | .pipes _ _ => .isTrue trivial

/-- A publisher with one pipe that has room for so many messages. -/
def onePipe (room : Nat) : Publisher :=
  ⟨[{ pipe := 0, room := some room, writerTerminating := false }]⟩

/-- The second message is refused with a third one behind it in the read
buffer; a `head` that makes room passes both on. -/
theorem held_back_iff_behind :
    ∃ e : BpTcpEngine (List Message) Publisher,
      Run step (AtHead Publisher.Writable fun _ _ e' => ¬ e'.Held)
        (accepted 8 8 [] ⟨[]⟩ 3 0)
        [.register (calm []), .sendTo (onePipe 1),
          .inEvent (calm [1, 5, 1, 9, 1, 7]), .head (onePipe 3) (calm [])] e ∧
      e.decoder.derived.pushed = [[5], [9], [7]] := by
  have hgets : ∃ e : BpTcpEngine (List Message) Publisher,
      Run step (AtHead Publisher.Writable fun e env _ => e.Held → e.Gets env)
        (accepted 8 8 [] ⟨[]⟩ 3 0)
        [.register (calm []), .sendTo (onePipe 1),
          .inEvent (calm [1, 5, 1, 9, 1, 7]), .head (onePipe 3) (calm [])] e ∧
      e.decoder.derived.pushed = [[5], [9], [7]] :=
    Run.of_exec_any (by decide +kernel)
  obtain ⟨e, hrun, hpushed⟩ := hgets
  exact ⟨e, (held_back_iff releasing_publisher).mpr hrun, hpushed⟩

/-- The second message is refused and the read buffer ends with it.  A `head`
makes room, but `socket.read` returns 0, and the message stays where it is. -/
theorem head_holds_back :
    ∃ e e' : BpTcpEngine (List Message) Publisher,
      Run step Any (accepted 8 8 [] ⟨[]⟩ 3 0)
        [.register (calm []), .sendTo (onePipe 1),
          .inEvent (calm [1, 5, 1, 9])] e ∧
      e.state = .connected ∧
      e.step (.head (onePipe 1) (calm [])) = some e' ∧
      e'.HasRoom Publisher.Writable ∧ e'.Held ∧
      e'.decoder.derived.pushed = [[5]] := by
  have hexec : (exec step Any
      (accepted 8 8 ([] : List Message) (⟨[]⟩ : Publisher) 3 0)
      [.register (calm []), .sendTo (onePipe 1),
        .inEvent (calm [1, 5, 1, 9])]).any
      (fun e => decide (e.state = .connected ∧
        (e.step (.head (onePipe 1) (calm []))).any (fun e' =>
          e'.HasRoom Publisher.Writable ∧ e'.Held ∧
            e'.decoder.derived.pushed = [[5]]))) = true := by
    decide +kernel
  obtain ⟨e, hrun, hstate, hstep⟩ := Run.of_exec_any hexec
  obtain ⟨e', he', hheld⟩ := (Option.any_eq_true _ _).mp hstep
  exact ⟨e, e', hrun, hstate, he', of_decide_eq_true hheld⟩

end BpTcpEngine

end ZeroMQ
