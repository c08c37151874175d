import Mathlib.Data.List.Induction
import ZeroMQ.Amqp.Encoder
import ZeroMQ.Lib.Run

/-!
# `amqp_encoder_t::reset`

When a connection is lost `amqp_client_t::error` calls `reset`, and the encoder
is used for the next one.  It starts with the protocol header again, but the
queue of the marshaller is left as it is: what was queued for the old connection
is sent on the new one.  The arguments of the command that was cut off are freed
and `command.args` keeps their address.  The next `reset` frees them once more,
and so does the destructor, unless another command has been begun.

Runs are cut into the pieces of `encoder_t::read`, so that every moment at which
bytes are copied from an argument buffer is a state of a run.

## Main results

* `read_pieces` — a call of `read` is a run of pieces.
* `Alike.respects` — which members the bytes depend on.
* `Owned.run` — who owns an argument buffer.
* `nodup_freed_iff` — nothing is freed twice exactly if no `reset` finds
  `command.args` dangling.
* `reset_renews_iff` — when `reset` is the begin of a new connection.
-/

namespace ZeroMQ

open Amqp ZeroMQ.Lib

/-- The calls of the encoder and the pieces of `read`: bytes are copied to the
buffer, an action is taken, and the begin of a message is noted.  The pipes
behind the mux may change in any way. -/
inductive AmqpEncoderAct (μ : Type) where
  | push (cmd : AmqpCommand)
  | flow (flowOn : Bool) (channel : UInt16)
  | pipes (change : μ → μ)
  | copy (n : Nat)
  | act
  | mark
  | reset

/-- The pieces of `read`. -/
def AmqpEncoderAct.isPiece {μ : Type} : AmqpEncoderAct μ → Bool
  | .copy _ | .act | .mark => true
  | _ => false

/-- What comes to an encoder between two connections. -/
inductive AmqpEncoderCall (μ : Type) where
  | push (cmd : AmqpCommand)
  | flow (flowOn : Bool) (channel : UInt16)
  | pipes (change : μ → μ)
  | read (size : Nat)

namespace AmqpEncoder

variable {μ : Type} {e e' : AmqpEncoder μ} {d : AmqpEncoderData μ}

/-- The messages in the pipes behind the mux have changed. -/
def pipes (e : AmqpEncoder μ) (change : μ → μ) : AmqpEncoder μ :=
  { e with derived := { e.derived with mux := change e.derived.mux } }

/-- The destructors of the encoder and of its marshaller free what they find in
`command` and in the queue; this is the history of `free` after them. -/
def destroy (e : AmqpEncoder μ) : List Nat :=
  e.derived.freed ++ (e.derived.command.map Prod.fst).toList ++
    e.derived.commandQueue.map Prod.fst

section Pieces

variable [Mux μ]

/-- A failed assertion ends the run. -/
def step (e : AmqpEncoder μ) : AmqpEncoderAct μ → Option (AmqpEncoder μ)
  | .push cmd => some (e.push cmd)
  | .flow flowOn channel => some (e.flow flowOn channel)
  | .pipes change => some (e.pipes change)
  | .copy n =>
      if n ≤ e.data.length then some { e with data := e.data.drop n } else none
  | .act =>
      if e.data = [] then
        match action e.next e.derived with
        | (none, derived) =>
            if derived.failed then none else some { e with derived := derived }
        | (some step, derived) => some (Encoder.nextStep step derived)
      else none
  | .mark => some { e with beginning := false }
  | .reset => some e.reset

/-- A call, and the bytes it returns. -/
def call (e : AmqpEncoder μ) : AmqpEncoderCall μ → AmqpEncoder μ × List UInt8
  | .push cmd => (e.push cmd, [])
  | .flow flowOn channel => (e.flow flowOn channel, [])
  | .pipes change => (e.pipes change, [])
  | .read size => ((e.read size).1, (e.read size).2.1)

/-- The bytes each of the calls returns. -/
def outputs (e : AmqpEncoder μ) : List (AmqpEncoderCall μ) → List (List UInt8)
  | [] => []
  | c :: cs => (e.call c).2 :: (e.call c).1.outputs cs

/-! ## The pieces of `read` -/

theorem mark_pieces (e : AmqpEncoder μ) (pos : Nat) (offset : Option Nat) :
    ∃ acts, (∀ a ∈ acts, a.isPiece = true) ∧
      Run step Any e acts (e.mark pos offset).1 := by
  unfold Encoder.mark
  split
  · exact ⟨[.mark], by simp [AmqpEncoderAct.isPiece],
      .cons trivial rfl (.nil _)⟩
  · exact ⟨[], by simp, .nil e⟩

/-- A call of `read` in which no assertion fails is a run of pieces. -/
theorem readLoop_pieces {size : Nat} (e : AmqpEncoder μ) (out : List UInt8)
    (offset : Option Nat)
    (h : (Encoder.readLoop fsm size e out offset).1.derived.failed = false) :
    ∃ acts, (∀ a ∈ acts, a.isPiece = true) ∧
      Run step Any e acts (Encoder.readLoop fsm size e out offset).1 := by
  fun_induction Encoder.readLoop fsm size e out offset with
  | case1 e out offset hsize hdata derived hact marked =>
      have hlive : derived.failed = false := by
        simpa only [marked, Encoder.mark_derived] using h
      obtain ⟨acts, hacts, hrun⟩ :=
        mark_pieces { e with derived := derived } out.length offset
      have hstep : step e .act = some { e with derived := derived } := by
        have hact : action e.next e.derived = (none, derived) := hact
        simp [step, hdata, hact, hlive]
      exact ⟨.act :: acts, List.forall_mem_cons.mpr ⟨rfl, hacts⟩,
        .cons trivial hstep hrun⟩
  | case2 e out offset hsize hdata step' derived hact marked ih =>
      obtain ⟨acts, hacts, hrun⟩ :=
        mark_pieces (Encoder.nextStep step' derived) out.length offset
      obtain ⟨acts', hacts', hrun'⟩ := ih h
      have hstep : step e .act = some (Encoder.nextStep step' derived) := by
        have hact : action e.next e.derived = (some step', derived) := hact
        simp [step, hdata, hact]
      refine ⟨.act :: (acts ++ acts'),
        List.forall_mem_cons.mpr ⟨rfl, fun a ha => ?_⟩,
        .cons trivial hstep (hrun.append hrun')⟩
      exact (List.mem_append.mp ha).elim (hacts a) (hacts' a)
  | case3 e out offset hsize hdata toCopy ih =>
      obtain ⟨acts, hacts, hrun⟩ := ih h
      have hle : toCopy ≤ e.data.length := Nat.min_le_left _ _
      have hstep : step e (.copy toCopy) =
          some { e with data := e.data.drop toCopy } := if_pos hle
      exact ⟨.copy toCopy :: acts, List.forall_mem_cons.mpr ⟨rfl, hacts⟩,
        .cons trivial hstep hrun⟩
  | case4 e out offset hsize => exact ⟨[], by simp, .nil e⟩

theorem read_pieces (e : AmqpEncoder μ) (size : Nat)
    (h : (e.read size).1.derived.failed = false) :
    ∃ acts, (∀ a ∈ acts, a.isPiece = true) ∧ Run step Any e acts (e.read size).1 :=
  readLoop_pieces e [] none h

/-! ## What the bytes depend on -/

/-- The members that the bytes still to come are made from. -/
structure Alike (st : AmqpEncoderState) (d d' : AmqpEncoderData μ) : Prop where
  mux : d.mux = d'.mux
  queue : d.queue = d'.queue
  commands : d.commandQueue.map Prod.snd = d'.commandQueue.map Prod.snd
  flowOn : d.flowOn = d'.flowOn
  channel : d.messageChannel = d'.messageChannel
  failed : d.failed = d'.failed
  command : st = .commandHeader →
    d.command.map Prod.snd = d'.command.map Prod.snd
  message : st ≠ .messageReady → st ≠ .commandHeader → st ≠ .commandArguments →
    d.message = d'.message
  offset : st = .contentBodyFrameHeader ∨ st = .contentBody ∨ st = .frameEnd →
    d.messageOffset = d'.messageOffset

theorem Alike.messageReady {d' : AmqpEncoderData μ}
    (h : Alike .messageReady d d') :
    (messageReady d).1 = (messageReady d').1 ∧
      Alike ((messageReady d).1.elim .messageReady EncoderStep.next)
        (messageReady d).2 (messageReady d').2 := by
  rcases d with ⟨mux, queue, commands, allocated, command, message, offset,
    flowOn, channel, freed, failed⟩
  rcases d' with ⟨mux', queue', commands', allocated', command', message',
    offset', flowOn', channel', freed', failed'⟩
  obtain rfl : mux = mux' := h.mux
  obtain rfl : queue = queue' := h.queue
  obtain rfl : flowOn = flowOn' := h.flowOn
  obtain rfl : channel = channel' := h.channel
  obtain rfl : failed = failed' := h.failed
  have hcommands : commands.map Prod.snd = commands'.map Prod.snd := h.commands
  unfold AmqpEncoder.messageReady
  cases commands with
  | cons c cs =>
      cases commands' with
      | nil => cases hcommands
      | cons c' cs' =>
          obtain ⟨hcmd, hrest⟩ := List.cons.inj hcommands
          obtain ⟨buffer, cmd⟩ := c
          obtain ⟨buffer', cmd'⟩ := c'
          obtain rfl : cmd = cmd' := hcmd
          exact ⟨rfl,
            { h with
              commands := hrest
              command := fun _ => rfl
              message := fun _ hne => (hne rfl).elim
              offset := by simp }⟩
  | nil =>
      cases commands' with
      | cons c' cs' => cases hcommands
      | nil =>
          dsimp only
          split
          · split
            · exact ⟨rfl, { h with mux := rfl, message := fun _ _ _ => rfl }⟩
            · split
              · exact ⟨rfl,
                  { h with
                    mux := rfl
                    command := by simp
                    message := fun _ _ _ => rfl
                    offset := by simp }⟩
              · exact ⟨rfl,
                  { h with
                    mux := rfl
                    failed := rfl
                    message := fun _ _ _ => rfl }⟩
          · exact ⟨rfl, h⟩

/-- The actions do not look at anything else. -/
theorem Alike.respects : Encoder.Respects (fsm (μ := μ)) Alike := by
  intro st d d' h
  show (action st d).1 = (action st d').1 ∧
    Alike ((action st d).1.elim st EncoderStep.next) (action st d).2
      (action st d').2
  unfold action
  rw [← h.failed]
  split
  · exact ⟨rfl, h⟩
  · cases st with
    | messageReady => exact h.messageReady
    | commandHeader =>
        have hargs : ∀ c : Option (Nat × AmqpCommand),
            c.elim [] (fun c => c.2.args) =
              (c.map Prod.snd).elim [] AmqpCommand.args := by
          intro c
          cases c <;> rfl
        refine ⟨?_, { h with
          command := by simp [act], message := ?_, offset := by simp [act] }⟩
        · simp only [act, hargs, h.command rfl]
        · exact fun _ _ hne => (hne rfl).elim
    | commandArguments =>
        exact ⟨rfl, { h with
          command := by simp [act]
          message := by simp [act]
          offset := by simp [act] }⟩
    | contentHeader =>
        have hmessage := h.message (by simp) (by simp) (by simp)
        refine ⟨by simp only [act, h.channel, hmessage], ?_⟩
        exact
          { h with
            command := by simp [act]
            message := fun _ _ _ => hmessage
            offset := fun _ => rfl }
    | contentBodyFrameHeader =>
        have hmessage := h.message (by simp) (by simp) (by simp)
        have hoffset := h.offset (.inl rfl)
        refine ⟨by simp only [act, bodySize, h.channel, hmessage, hoffset], ?_⟩
        exact
          { h with
            command := by simp [act]
            message := fun _ _ _ => hmessage
            offset := fun _ => hoffset }
    | contentBody =>
        have hmessage := h.message (by simp) (by simp) (by simp)
        have hoffset := h.offset (.inr (.inl rfl))
        have hsize : bodySize d = bodySize d' := by
          rw [bodySize, bodySize, hmessage, hoffset]
        refine ⟨by simp only [act, hsize, hmessage, hoffset], ?_⟩
        exact
          { h with
            command := by simp [act]
            message := fun _ _ _ => hmessage
            offset := fun _ => by
              simp only [act]
              rw [hoffset, hsize] }
    | frameEnd =>
        have hmessage := h.message (by simp) (by simp) (by simp)
        have hoffset := h.offset (.inr (.inr rfl))
        simp only [act]
        rw [← hmessage, ← hoffset]
        split
        · exact ⟨rfl,
            { h with command := by simp, message := by simp, offset := by simp }⟩
        · exact ⟨rfl,
            { h with
              command := by simp
              message := fun _ _ _ => hmessage
              offset := fun _ => hoffset }⟩

theorem Alike.call (h : Encoder.Alike Alike e e') (c : AmqpEncoderCall μ) :
    Encoder.Alike Alike (e.call c).1 (e'.call c).1 ∧
      (e.call c).2 = (e'.call c).2 := by
  have hd := h.derived
  cases c with
  | push cmd =>
      have hcommands : (e.push cmd).derived.commandQueue.map Prod.snd =
          (e'.push cmd).derived.commandQueue.map Prod.snd := by
        simp only [push, List.map_append, hd.commands, List.map_cons]
      exact ⟨⟨h.data, h.next, h.beginning, { hd with commands := hcommands }⟩,
        rfl⟩
  | flow flowOn channel =>
      exact ⟨⟨h.data, h.next, h.beginning,
        { hd with flowOn := rfl, channel := rfl }⟩, rfl⟩
  | pipes change =>
      exact ⟨⟨h.data, h.next, h.beginning,
        { hd with mux := congrArg change hd.mux }⟩, rfl⟩
  | read size =>
      obtain ⟨halike, hout⟩ := Encoder.read_alike Alike.respects size h
      exact ⟨halike, congrArg Prod.fst hout⟩

theorem Alike.outputs (h : Encoder.Alike Alike e e')
    (calls : List (AmqpEncoderCall μ)) : e.outputs calls = e'.outputs calls := by
  induction calls generalizing e e' with
  | nil => rfl
  | cons c calls ih =>
      obtain ⟨halike, hout⟩ := Alike.call h c
      simp only [AmqpEncoder.outputs, hout, ih halike]

/-! ## The commands left in the queue -/

/-- The protocol header has been sent, and there is room for one more byte. -/
theorem read_header (hdata : e.data = protocolHeader) :
    e.read 9 =
      Encoder.readLoop fsm 9 { e with data := [] } protocolHeader none := by
  rw [read, Encoder.read, Encoder.readLoop, if_pos (by simp),
    if_neg (by simp [hdata, protocolHeader])]
  simp only [hdata]
  rfl

/-- A new encoder has nothing else to send. -/
theorem read_create (mux : μ) (queue : List UInt8) :
    ((create mux queue).read 9).2.1 = protocolHeader := by
  rw [read_header rfl, Encoder.readLoop, if_pos (by decide), if_pos rfl]
  split
  · rfl
  · next step derived hact => cases hact

/-- One that has been reset goes on with the commands of its queue. -/
theorem read_reset (hlive : e.derived.failed = false)
    (hqueue : e.derived.commandQueue ≠ []) :
    protocolHeader.length < (e.reset.read 9).2.1.length := by
  obtain ⟨c, cs, hc⟩ := List.exists_cons_of_ne_nil hqueue
  have haction : action .messageReady e.reset.derived =
      (some ⟨methodHeader c.2, .commandHeader, true⟩,
        { e.reset.derived with commandQueue := cs, command := some c }) := by
    simp [action, act, messageReady, reset, hlive, hc]
  rw [read_header rfl, Encoder.readLoop, if_pos (by decide), if_pos rfl]
  split
  · next derived hact =>
      cases haction.symm.trans hact
  · next step derived hact =>
      cases haction.symm.trans hact
      apply Encoder.readLoop_grows
      · rw [Encoder.mark_data]
        nofun
      · decide

/-- After `reset` the encoder behaves as a new one exactly if no command was
waiting in the queue. -/
theorem outputs_reset_iff (hlive : e.derived.failed = false) :
    (∀ calls, e.reset.outputs calls =
      (create e.derived.mux e.derived.queue).outputs calls) ↔
      e.derived.commandQueue = [] := by
  constructor
  · intro hsame
    by_contra hqueue
    have hout : [(e.reset.read 9).2.1] =
        [((create e.derived.mux e.derived.queue).read 9).2.1] :=
      hsame [.read 9]
    have hlt := read_reset hlive hqueue
    rw [List.singleton_inj.mp hout, read_create] at hlt
    exact Nat.lt_irrefl _ hlt
  · intro hqueue calls
    apply Alike.outputs
    exact
      { data := rfl
        next := rfl
        beginning := rfl
        derived :=
          { mux := rfl
            queue := rfl
            commands := congrArg _ hqueue
            flowOn := rfl
            channel := rfl
            failed := hlive
            command := nofun
            message := fun hne => (hne rfl).elim
            offset := nofun } }

end Pieces

/-! ## Argument buffers -/

/-- A command has been begun whose arguments are not yet freed. -/
def encoding (e : AmqpEncoder μ) : Bool :=
  e.next = .commandHeader ∨ e.next = .commandArguments

/-- The buffers that bytes are copied from, or will be: that of the command
begun, and those in the queue. -/
def owned (e : AmqpEncoder μ) : List Nat :=
  (if e.encoding then (e.derived.command.map Prod.fst).toList else []) ++
    e.derived.commandQueue.map Prod.fst

/-- `command.args` points to memory that has been freed. -/
def Dangling (d : AmqpEncoderData μ) : Prop :=
  ∃ c, d.command = some c ∧ c.1 ∈ d.freed

instance (d : AmqpEncoderData μ) : Decidable (Dangling d) :=
  match hc : d.command with
  | none => .isFalse fun ⟨_, hsome, _⟩ => by rw [hc] at hsome; cases hsome
  | some c =>
      decidable_of_iff (c.1 ∈ d.freed)
        ⟨fun hmem => ⟨c, hc, hmem⟩, fun ⟨_, hsome, hmem⟩ => by
          rw [hc] at hsome
          cases hsome
          exact hmem⟩

/-- `reset` is not called while `command.args` dangles. -/
def Careful (e : AmqpEncoder μ) : AmqpEncoderAct μ → Prop
  | .reset => ¬ Dangling e.derived
  | _ => True

instance (e : AmqpEncoder μ) (a : AmqpEncoderAct μ) : Decidable (Careful e a) :=
  match a with
  | .reset => inferInstanceAs (Decidable (¬ _))
  | .push _ | .flow _ _ | .pipes _ | .copy _ | .act | .mark => .isTrue trivial

/-- A command is taken from the queue. -/
def Begins (e : AmqpEncoder μ) : AmqpEncoderAct μ → Prop
  | .act => e.next = .messageReady ∧ e.derived.commandQueue ≠ []
  | _ => False

/-- Who owns the argument buffers: those that are to be read are distinct and
have not been freed, and outside of a command `command.args` is null or
dangles. -/
structure Owned (e : AmqpEncoder μ) : Prop where
  live : e.derived.failed = false
  nodup : (owned e).Nodup
  valid : ∀ b ∈ owned e, b < e.derived.allocated ∧ b ∉ e.derived.freed
  freed : ∀ b ∈ e.derived.freed, b < e.derived.allocated
  begun : e.encoding = true → e.derived.command ≠ none
  stale : e.encoding = false → ∀ c, e.derived.command = some c →
    c.1 ∈ e.derived.freed
  args : e.next = .commandArguments →
    ∃ c, e.derived.command = some c ∧ e.data <:+ c.2.args

/-- What an action does to the buffers: it begins a command, announces its
arguments, frees them, or does not touch any. -/
inductive Handles (e e' : AmqpEncoder μ) : Prop where
  | begins {c : Nat × AmqpCommand} {cs : List (Nat × AmqpCommand)}
      (hnext : e.next = .messageReady) (hqueue : e.derived.commandQueue = c :: cs)
      (hnext' : e'.next = .commandHeader)
      (hderived : e'.derived =
        { e.derived with commandQueue := cs, command := some c })
  | announces (hnext : e.next = .commandHeader)
      (hnext' : e'.next = .commandArguments)
      (hdata : e'.data = e.derived.command.elim [] fun c => c.2.args)
      (hderived : e'.derived = e.derived)
  | frees (hnext : e.next = .commandArguments)
      (hnext' : e'.next = .messageReady)
      (hderived : e'.derived =
        { e.derived with
          command := none
          freed := e.derived.freed ++ (e.derived.command.map Prod.fst).toList })
  | keeps (hout : e.encoding = false) (hout' : e'.encoding = false)
      (hallocated : e'.derived.allocated = e.derived.allocated)
      (hqueue : e'.derived.commandQueue = e.derived.commandQueue)
      (hcommand : e'.derived.command = e.derived.command)
      (hfreed : e'.derived.freed = e.derived.freed)
      (hname : e'.derived.queue = e.derived.queue)
      (hbegin : e.next = .messageReady → e.derived.commandQueue = [])
      (hlive : e'.derived.failed = false)

theorem owned_of_encoding {c : Nat × AmqpCommand} (hnext : e.encoding = true)
    (hc : e.derived.command = some c) :
    owned e = c.1 :: e.derived.commandQueue.map Prod.fst := by
  rw [owned, if_pos hnext, hc]
  rfl

theorem owned_of_not_encoding (h : e.encoding = false) :
    owned e = e.derived.commandQueue.map Prod.fst := by
  rw [owned, h]
  rfl

theorem Owned.create (mux : μ) (queue : List UInt8) :
    Owned (create mux queue) where
  live := rfl
  nodup := .nil
  valid := nofun
  freed := nofun
  begun := nofun
  stale := nofun
  args := nofun

/-- The buffer of a command has the number of the last `malloc`. -/
theorem Owned.push (h : Owned e) (cmd : AmqpCommand) :
    Owned (e.push cmd) := by
  have howned : owned (e.push cmd) = owned e ++ [e.derived.allocated] := by
    rw [owned, owned, List.append_assoc]
    exact congrArg _ List.map_append
  have hnew : e.derived.allocated ∉ owned e := fun hmem =>
    Nat.lt_irrefl _ (h.valid _ hmem).1
  refine
    { h with
      nodup := ?_
      valid := ?_
      freed := fun b hb => Nat.lt_succ_of_lt (h.freed b hb) }
  · rw [howned]
    exact List.nodup_append.mpr ⟨h.nodup, List.pairwise_singleton _ _, by
      rintro b hb _ hb' rfl
      rw [List.mem_singleton.mp hb'] at hb
      exact hnew hb⟩
  · intro b hb
    rw [howned] at hb
    rcases List.mem_append.mp hb with hold | hlast
    · exact ⟨Nat.lt_succ_of_lt (h.valid b hold).1, (h.valid b hold).2⟩
    · rw [List.mem_singleton.mp hlast]
      exact ⟨Nat.lt_succ_self _, fun hmem => Nat.lt_irrefl _ (h.freed _ hmem)⟩

/-- While a command is encoded its arguments are not freed. -/
theorem Owned.not_dangling (h : Owned e) (hin : e.encoding = true) :
    ¬ Dangling e.derived := by
  rintro ⟨c, hc, hmem⟩
  have hvalid := h.valid c.1
  rw [owned_of_encoding hin hc] at hvalid
  exact (hvalid (.head _)).2 hmem

/-- The buffer in `command`, begun or dangling, is not one of the queue. -/
theorem Owned.command_not_queued (h : Owned e) {c : Nat × AmqpCommand}
    (hc : e.derived.command = some c) :
    c.1 ∉ e.derived.commandQueue.map Prod.fst ∧ c.1 < e.derived.allocated := by
  cases hin : e.encoding with
  | true =>
      have hnodup := h.nodup
      have hvalid := h.valid c.1
      rw [owned_of_encoding hin hc] at hnodup hvalid
      exact ⟨(List.nodup_cons.mp hnodup).1, (hvalid (.head _)).1⟩
  | false =>
      have hfreed := h.stale hin c hc
      exact ⟨fun hmem => (h.valid _ (List.mem_append_right _ hmem)).2 hfreed,
        h.freed _ hfreed⟩

theorem mem_freed_command {b : Nat} :
    b ∈ d.freed ++ (d.command.map Prod.fst).toList ↔
      b ∈ d.freed ∨ ∃ c, d.command = some c ∧ c.1 = b := by
  simp [List.mem_append]

theorem Owned.reset (h : Owned e) : Owned e.reset := by
  have hqueue : owned e.reset = e.derived.commandQueue.map Prod.fst :=
    owned_of_not_encoding rfl
  refine
    { live := h.live
      nodup := ?_
      valid := fun b hb => ?_
      freed := fun b hb => ?_
      begun := nofun
      stale := fun _ c hc => mem_freed_command.mpr (.inr ⟨c, hc, rfl⟩)
      args := nofun }
  · rw [hqueue]
    exact (List.nodup_append.mp h.nodup).2.1
  · rw [hqueue] at hb
    have hvalid := h.valid b (List.mem_append_right _ hb)
    refine ⟨hvalid.1, fun hfreed => ?_⟩
    rcases mem_freed_command.mp hfreed with hold | ⟨c, hc, rfl⟩
    · exact hvalid.2 hold
    · exact (h.command_not_queued hc).1 hb
  · rcases mem_freed_command.mp hb with hold | ⟨c, hc, rfl⟩
    · exact h.freed b hold
    · exact (h.command_not_queued hc).2

/-- `free` of what is in `command` is the second one exactly if that dangles. -/
theorem nodup_freed_command :
    (d.freed ++ (d.command.map Prod.fst).toList).Nodup ↔
      d.freed.Nodup ∧ ¬ Dangling d := by
  cases hc : d.command with
  | none => simp [Dangling, hc]
  | some c =>
      simp only [Option.map_some, Option.toList_some, List.nodup_append,
        List.mem_singleton, Dangling, hc, Option.some.injEq, exists_eq_left']
      constructor
      · rintro ⟨hnodup, _, hne⟩
        exact ⟨hnodup, fun hmem => hne _ hmem _ rfl rfl⟩
      · rintro ⟨hnodup, hnot⟩
        refine ⟨hnodup, List.pairwise_singleton _ _, ?_⟩
        rintro b hb _ rfl rfl
        exact hnot hb

/-- The destructors free nothing a second time, unless `command.args`
dangles. -/
theorem Owned.nodup_destroy (h : Owned e) :
    e.destroy.Nodup ↔ e.derived.freed.Nodup ∧ ¬ Dangling e.derived := by
  have hqueue : (e.derived.commandQueue.map Prod.fst).Nodup :=
    (List.nodup_append.mp h.nodup).2.1
  have hdisjoint : ∀ a ∈ e.derived.freed ++
      (e.derived.command.map Prod.fst).toList,
      ∀ b ∈ e.derived.commandQueue.map Prod.fst, a ≠ b := by
    rintro a ha _ hb rfl
    rcases mem_freed_command.mp ha with hold | ⟨c, hc, rfl⟩
    · exact (h.valid a (List.mem_append_right _ hb)).2 hold
    · exact (h.command_not_queued hc).1 hb
  rw [destroy, List.nodup_append, nodup_freed_command]
  exact ⟨And.left, fun hnodup => ⟨hnodup, hqueue, hdisjoint⟩⟩

section Runs

variable [Mux μ] {acts : List (AmqpEncoderAct μ)} {a : AmqpEncoderAct μ}
  {queue : List UInt8} {mux : μ}

theorem Handles.of_step (hlive : e.derived.failed = false)
    (h : step e .act = some e') : Handles e e' := by
  have hlive' : ¬ e.derived.failed = true := by simp [hlive]
  rw [step, Option.ite_none_right_eq_some] at h
  obtain ⟨_, h⟩ := h
  rw [action, if_neg hlive'] at h
  cases hnext : e.next with
  | messageReady =>
      have hout : e.encoding = false := by simp [encoding, hnext]
      rw [hnext] at h
      simp only [act, messageReady] at h
      cases hqueue : e.derived.commandQueue with
      | cons c cs =>
          rw [hqueue] at h
          cases h
          exact .begins hnext hqueue rfl rfl
      | nil =>
          have hempty : e.next = .messageReady → e.derived.commandQueue = [] :=
            fun _ => hqueue
          rw [hqueue] at h
          dsimp only at h
          by_cases hflow : e.derived.flowOn = true
          · rw [if_pos hflow] at h
            cases hread : Mux.read e.derived.mux with
            | mk message mux =>
                rw [hread] at h
                cases message with
                | none =>
                    dsimp only at h
                    rw [if_neg hlive'] at h
                    cases h
                    exact .keeps hout rfl rfl hqueue.symm rfl rfl rfl hempty
                      hlive
                | some message =>
                    dsimp only at h
                    by_cases hfits : PublishFits e.derived.queue
                    · rw [if_pos hfits] at h
                      cases h
                      exact .keeps hout rfl rfl hqueue.symm rfl rfl rfl hempty
                        hlive
                    · rw [if_neg hfits] at h
                      cases h
          · rw [if_neg hflow] at h
            dsimp only at h
            rw [if_neg hlive'] at h
            cases h
            exact .keeps hout rfl rfl rfl rfl rfl rfl hempty hlive
  | commandHeader =>
      rw [hnext] at h
      cases h
      exact .announces hnext rfl rfl rfl
  | commandArguments =>
      rw [hnext] at h
      cases h
      exact .frees hnext rfl rfl
  | contentHeader | contentBodyFrameHeader | contentBody =>
      have hother : e.next ≠ .messageReady := by simp [hnext]
      rw [hnext] at h
      cases h
      exact .keeps (by simp [encoding, hnext]) rfl rfl rfl rfl rfl rfl
        (fun hno => (hother hno).elim) hlive
  | frameEnd =>
      have hother : e.next ≠ .messageReady := by simp [hnext]
      have hout : e.encoding = false := by simp [encoding, hnext]
      rw [hnext] at h
      simp only [act] at h
      by_cases hall : e.derived.message.length = e.derived.messageOffset
      · rw [if_pos hall] at h
        cases h
        exact .keeps hout rfl rfl rfl rfl rfl rfl
          (fun hno => (hother hno).elim) hlive
      · rw [if_neg hall] at h
        cases h
        exact .keeps hout rfl rfl rfl rfl rfl rfl
          (fun hno => (hother hno).elim) hlive

/-- What `free` is called with is freed, and what is left in the queue is not. -/
theorem Owned.act (h : Owned e) (hs : step e .act = some e') : Owned e' := by
  cases Handles.of_step h.live hs with
  | @begins c cs hnext hqueue hnext' hderived =>
      have hout : e.encoding = false := by simp [encoding, hnext]
      have hin : e'.encoding = true := by simp [encoding, hnext']
      have hcommand : e'.derived.command = some c := by rw [hderived]
      have howned : owned e' = owned e := by
        rw [owned_of_encoding hin hcommand, owned_of_not_encoding hout, hqueue,
          hderived]
        rfl
      exact
        { live := by rw [hderived]; exact h.live
          nodup := by rw [howned]; exact h.nodup
          valid := by rw [howned, hderived]; exact h.valid
          freed := by rw [hderived]; exact h.freed
          begun := fun _ => by rw [hcommand]; nofun
          stale := fun hno => by rw [hin] at hno; cases hno
          args := fun hargs => by rw [hnext'] at hargs; cases hargs }
  | announces hnext hnext' hdata hderived =>
      have hin : e.encoding = true := by simp [encoding, hnext]
      have hin' : e'.encoding = true := by simp [encoding, hnext']
      obtain ⟨c, hc⟩ := Option.ne_none_iff_exists'.mp (h.begun hin)
      have howned : owned e' = owned e := by
        rw [owned, owned, hin, hin', hderived]
      exact
        { live := by rw [hderived]; exact h.live
          nodup := by rw [howned]; exact h.nodup
          valid := by rw [howned, hderived]; exact h.valid
          freed := by rw [hderived]; exact h.freed
          begun := fun _ => by rw [hderived]; exact h.begun hin
          stale := fun hno => by rw [hin'] at hno; cases hno
          args := fun _ => ⟨c, by rw [hderived, hc], by
            rw [hdata, hc]
            exact List.suffix_refl _⟩ }
  | frees hnext hnext' hderived =>
      have hin : e.encoding = true := by simp [encoding, hnext]
      have hout' : e'.encoding = false := by simp [encoding, hnext']
      obtain ⟨c, hc⟩ := Option.ne_none_iff_exists'.mp (h.begun hin)
      have howned : owned e = c.1 :: owned e' := by
        rw [owned_of_encoding hin hc, owned_of_not_encoding hout', hderived]
      have hfreed : e'.derived.freed = e.derived.freed ++ [c.1] := by
        rw [hderived, hc]
        rfl
      have hnodup := h.nodup
      rw [howned, List.nodup_cons] at hnodup
      refine
        { live := by rw [hderived]; exact h.live
          nodup := hnodup.2
          valid := fun b hb => ?_
          freed := fun b hb => ?_
          begun := fun hno => by rw [hout'] at hno; cases hno
          stale := fun _ c' hc' => by rw [hderived] at hc'; cases hc'
          args := fun hargs => by rw [hnext'] at hargs; cases hargs }
      · have hvalid := h.valid b (by rw [howned]; exact .tail _ hb)
        refine ⟨by rw [hderived]; exact hvalid.1, ?_⟩
        rw [hfreed]
        intro hmem
        rcases List.mem_append.mp hmem with hold | hlast
        · exact hvalid.2 hold
        · rw [List.mem_singleton.mp hlast] at hb
          exact hnodup.1 hb
      · rw [hderived]
        rw [hfreed] at hb
        rcases List.mem_append.mp hb with hold | hlast
        · exact h.freed b hold
        · rw [List.mem_singleton.mp hlast]
          exact (h.valid c.1 (by rw [howned]; exact .head _)).1
  | keeps hout hout' hallocated hqueue hcommand hfreed _ _ hlive =>
      have howned : owned e' = owned e := by
        rw [owned_of_not_encoding hout, owned_of_not_encoding hout', hqueue]
      refine
        { live := hlive
          nodup := by rw [howned]; exact h.nodup
          valid := by rw [howned, hallocated, hfreed]; exact h.valid
          freed := by rw [hallocated, hfreed]; exact h.freed
          begun := fun hno => by rw [hout'] at hno; cases hno
          stale := fun _ => by rw [hcommand, hfreed]; exact h.stale hout
          args := fun hargs => ?_ }
      simp [encoding, hargs] at hout'

theorem Owned.step (h : Owned e) (hs : step e a = some e') : Owned e' := by
  cases a with
  | push cmd =>
      cases hs
      exact h.push cmd
  | flow flowOn channel =>
      cases hs
      exact { h with }
  | pipes change =>
      cases hs
      exact { h with }
  | copy n =>
      obtain ⟨_, hs⟩ := Option.ite_none_right_eq_some.mp hs
      cases hs
      refine { h with args := fun hargs => ?_ }
      obtain ⟨c, hc, hsuffix⟩ := h.args hargs
      exact ⟨c, hc, (List.drop_suffix n e.data).trans hsuffix⟩
  | act => exact h.act hs
  | mark =>
      cases hs
      exact { h with }
  | reset =>
      cases hs
      exact h.reset

theorem queue_step (h : Owned e) (hs : AmqpEncoder.step e a = some e') :
    e'.derived.queue = e.derived.queue := by
  cases a with
  | push | flow | pipes | mark | reset =>
      cases hs
      rfl
  | copy n =>
      obtain ⟨_, hs⟩ := Option.ite_none_right_eq_some.mp hs
      cases hs
      rfl
  | act =>
      cases Handles.of_step h.live hs with
      | begins _ _ _ hderived => rw [hderived]
      | announces _ _ _ hderived => rw [hderived]
      | frees _ _ hderived => rw [hderived]
      | keeps _ _ _ _ _ _ hname => exact hname

theorem Owned.run {ok : AmqpEncoder μ → AmqpEncoderAct μ → Prop}
    (h : Run AmqpEncoder.step ok (AmqpEncoder.create mux queue) acts e) :
    Owned e ∧ e.derived.queue = queue := by
  refine h.invariant (I := fun e => Owned e ∧ e.derived.queue = queue) ?_
    ⟨Owned.create mux queue, rfl⟩
  intro e a e' hinv _ hs
  exact ⟨hinv.1.step hs, (queue_step hinv.1 hs).trans hinv.2⟩

/-- A step that is not a `reset` leaves `command.args` dangling, or lets it
point to a command that has just been begun. -/
theorem Owned.dangling_iff (h : Owned e) (hne : a ≠ .reset)
    (hs : AmqpEncoder.step e a = some e') :
    Dangling e'.derived ↔ Dangling e.derived ∧ ¬ Begins e a := by
  cases a with
  | reset => exact (hne rfl).elim
  | push | flow | pipes | mark =>
      cases hs
      exact ⟨fun hd => ⟨hd, id⟩, And.left⟩
  | copy n =>
      obtain ⟨_, hs⟩ := Option.ite_none_right_eq_some.mp hs
      cases hs
      exact ⟨fun hd => ⟨hd, id⟩, And.left⟩
  | act =>
      have h' := h.step hs
      cases Handles.of_step h.live hs with
      | begins hnext hqueue hnext' hderived =>
          constructor
          · intro hd
            exact (h'.not_dangling (by simp [encoding, hnext']) hd).elim
          · rintro ⟨_, hbegins⟩
            exact (hbegins ⟨hnext, by rw [hqueue]; nofun⟩).elim
      | announces hnext _ _ hderived =>
          rw [hderived]
          refine ⟨fun hd => ⟨hd, ?_⟩, And.left⟩
          rintro ⟨hno, _⟩
          rw [hnext] at hno
          cases hno
      | frees hnext _ hderived =>
          constructor
          · rintro ⟨c, hc, _⟩
            rw [hderived] at hc
            cases hc
          · rintro ⟨hd, _⟩
            exact (h.not_dangling (by simp [encoding, hnext]) hd).elim
      | keeps _ _ _ _ hcommand hfreed _ hbegin _ =>
          rw [Dangling, hcommand, hfreed]
          refine ⟨fun hd => ⟨hd, ?_⟩, And.left⟩
          rintro ⟨hnext, hqueue⟩
          exact hqueue (hbegin hnext)

/-- Nothing is freed twice by a step, unless it is a `reset` that finds
`command.args` dangling. -/
theorem Owned.nodup_freed (h : Owned e) (hs : AmqpEncoder.step e a = some e') :
    e'.derived.freed.Nodup ↔ e.derived.freed.Nodup ∧ Careful e a := by
  cases a with
  | reset =>
      cases hs
      exact nodup_freed_command
  | push | flow | pipes | mark =>
      cases hs
      exact ⟨fun hnodup => ⟨hnodup, trivial⟩, And.left⟩
  | copy n =>
      obtain ⟨_, hs⟩ := Option.ite_none_right_eq_some.mp hs
      cases hs
      exact ⟨fun hnodup => ⟨hnodup, trivial⟩, And.left⟩
  | act =>
      have hsame : e'.derived.freed = e.derived.freed →
          (e'.derived.freed.Nodup ↔ e.derived.freed.Nodup ∧ Careful e .act) := by
        intro hfreed
        rw [hfreed]
        exact ⟨fun hnodup => ⟨hnodup, trivial⟩, And.left⟩
      cases Handles.of_step h.live hs with
      | begins _ _ _ hderived => exact hsame (by rw [hderived])
      | announces _ _ _ hderived => exact hsame (by rw [hderived])
      | keeps _ _ _ _ _ hfreed => exact hsame hfreed
      | frees hnext _ hderived =>
          have hnot := h.not_dangling (by simp [encoding, hnext])
          rw [hderived]
          exact nodup_freed_command.trans
            ⟨fun hnodup => ⟨hnodup.1, trivial⟩, fun hnodup => ⟨hnodup.1, hnot⟩⟩

/-- Over a run nothing is freed twice exactly if every `reset` is careful. -/
theorem nodup_freed_iff (h : Run step Any (create mux queue) acts e) :
    e.derived.freed.Nodup ↔ Run step Careful (create mux queue) acts e := by
  have hiff := h.iff_of_step (I := Owned)
    (P := fun e => e.derived.freed.Nodup)
    (fun _ _ _ hI hs => hI.step hs) (fun _ _ _ hI hs => hI.nodup_freed hs)
    (Owned.create mux queue)
  exact hiff.trans ⟨And.right, fun hrun => ⟨.nil, hrun⟩⟩

/-- `command.args` dangles when a `reset` has found it in use and no command has
been begun since. -/
theorem dangling_iff_reset (h : Run step Any (create mux queue) acts e) :
    Dangling e.derived ↔
      ∃ before since s, acts = before ++ .reset :: since ∧
        Run step Any (create mux queue) before s ∧ s.derived.command ≠ none ∧
        Run step (fun e a => ¬ Begins e a) s.reset since e := by
  constructor
  · intro hd
    induction acts using List.reverseRecOn generalizing e with
    | nil =>
        cases h
        obtain ⟨c, hc, _⟩ := hd
        cases hc
    | append_singleton acts a ih =>
        obtain ⟨s, hrun, hlast⟩ := h.split
        cases hlast with
        | cons _ hs hnil =>
            cases hnil
            have howned := (Owned.run hrun).1
            by_cases ha : a = .reset
            · subst ha
              cases hs
              obtain ⟨c, hc, _⟩ := hd
              have hc : s.derived.command = some c := hc
              exact ⟨acts, [], s, rfl, hrun, by rw [hc]; nofun, .nil _⟩
            · obtain ⟨hd, hbegins⟩ := (howned.dangling_iff ha hs).mp hd
              obtain ⟨before, since, t, rfl, hbefore, hcommand, hsince⟩ :=
                ih hrun hd
              exact ⟨before, since ++ [a], t, by simp, hbefore, hcommand,
                hsince.snoc hbegins hs⟩
  · rintro ⟨before, since, s, _, hbefore, hcommand, hsince⟩
    have howned := (Owned.run hbefore).1
    obtain ⟨c, hc⟩ := Option.ne_none_iff_exists'.mp hcommand
    have hd : Dangling s.reset.derived :=
      ⟨c, hc, mem_freed_command.mpr (.inr ⟨c, hc, rfl⟩)⟩
    refine (hsince.invariant (I := fun e => Owned e ∧ Dangling e.derived) ?_
      ⟨howned.reset, hd⟩).2
    rintro e a e' ⟨hI, hd⟩ hbegins hs
    refine ⟨hI.step hs, ?_⟩
    by_cases ha : a = .reset
    · subst ha
      cases hs
      obtain ⟨c, hc, hmem⟩ := hd
      exact ⟨c, hc, List.mem_append_left _ hmem⟩
    · exact (hI.dangling_iff ha hs).mpr ⟨hd, hbegins⟩

end Runs

end AmqpEncoder

open AmqpEncoder

/-- `reset` at any moment of any run with any number of resets.  From then on
the encoder sends what a new one with the same queue name would send, whatever
commands, flow calls and reads follow, exactly if no command was waiting in the
queue.  Bytes are never copied from arguments that have been freed.  Nothing is
freed twice, the destructors included, exactly if no `reset` and no destructor
finds `command.args` dangling; and it dangles exactly from a `reset` that cut a
command off until another one is begun. -/
theorem reset_renews_iff {μ : Type} [Mux μ] {mux : μ} {queue : List UInt8}
    {acts : List (AmqpEncoderAct μ)} {e : AmqpEncoder μ}
    (h : Run step Any (create mux queue) acts e) :
    ((∀ calls, e.reset.outputs calls =
        (create e.derived.mux queue).outputs calls) ↔
      e.derived.commandQueue = []) ∧
    ((∀ b ∈ owned e, b ∉ e.derived.freed) ∧
      (e.next = .commandArguments → ∃ c, e.derived.command = some c ∧
        c.1 ∈ owned e ∧ e.data <:+ c.2.args)) ∧
    (e.destroy.Nodup ↔
      Run step Careful (create mux queue) acts e ∧ ¬ Dangling e.derived) ∧
    (Dangling e.derived ↔
      ∃ before since s, acts = before ++ .reset :: since ∧
        Run step Any (create mux queue) before s ∧ s.derived.command ≠ none ∧
        Run step (fun e a => ¬ Begins e a) s.reset since e) := by
  obtain ⟨howned, rfl⟩ := Owned.run h
  refine ⟨outputs_reset_iff howned.live, ⟨fun b hb => (howned.valid b hb).2,
    fun hargs => ?_⟩, ?_, dangling_iff_reset h⟩
  · obtain ⟨c, hc, hdata⟩ := howned.args hargs
    have hin : e.encoding = true := by simp [encoding, hargs]
    exact ⟨c, hc, by rw [owned_of_encoding hin hc]; exact .head _, hdata⟩
  · rw [howned.nodup_destroy, nodup_freed_iff h]

/-- `connection.open` of the virtual host `/`, without further arguments. -/
def openCommand : AmqpCommand :=
  { channel := 0, classId := connectionId, methodId := 40, args := [1, 47, 0, 0] }

/-- A command is sent and its arguments are freed. -/
theorem reset_renews_iff_sent :
    ∃ e : AmqpEncoder (List Message),
      Run step Any (create [] [])
        [.push openCommand, .copy 8, .act, .copy 11, .act, .copy 4, .act] e ∧
      e.derived.freed = [0] ∧
      (∀ calls, e.reset.outputs calls = (create [] []).outputs calls) ∧
      e.destroy.Nodup := by
  have hcareful : ∃ e : AmqpEncoder (List Message),
      Run step Careful (create [] [])
        [.push openCommand, .copy 8, .act, .copy 11, .act, .copy 4, .act] e ∧
      e.derived.freed = [0] ∧ e.derived.mux = [] ∧
      e.derived.commandQueue = [] ∧ ¬ Dangling e.derived :=
    Run.of_exec_any (by decide +kernel)
  obtain ⟨e, hrun, hfreed, hmux, hqueue, hdangling⟩ := hcareful
  have hany := hrun.mono fun _ _ _ => trivial
  obtain ⟨hbytes, _, hfree, _⟩ := reset_renews_iff hany
  rw [hmux] at hbytes
  exact ⟨e, hany, hfreed, hbytes.mpr hqueue, hfree.mpr ⟨hrun, hdangling⟩⟩

/-- A command that was queued before the `reset` is sent after it: the ninth
byte is the first one of its frame, where a new encoder has nothing to send.
And the arguments of a command that is cut off are freed by every `reset`, until
another command is begun. -/
theorem reset_not_renewed :
    ((create ([] : List Message) []).push openCommand).reset.outputs [.read 9] ≠
      (create ([] : List Message) []).outputs [.read 9] ∧
    ∃ e : AmqpEncoder (List Message),
      Run step Any (create [] [])
        [.push openCommand, .copy 8, .act, .copy 1, .reset, .reset] e ∧
      e.derived.freed = [0, 0] := by
  constructor
  · intro hsame
    have hlt := read_reset (e := (create ([] : List Message) []).push openCommand)
      rfl (by decide)
    have hout : [(((create ([] : List Message) []).push openCommand).reset.read
        9).2.1] = [((create ([] : List Message) []).read 9).2.1] := hsame
    rw [List.singleton_inj.mp hout, read_create] at hlt
    exact Nat.lt_irrefl _ hlt
  · exact Run.of_exec_any (by decide +kernel)

end ZeroMQ
