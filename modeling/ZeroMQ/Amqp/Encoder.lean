import ZeroMQ.Codec.Bp

/-!
# `amqp_encoder_t`

The encoder of `libzmq/amqp_encoder.cpp` sends the commands queued in its
marshaller (`libzmq/amqp_marshaller.cpp`) and, while the flow is on, the
messages of a mux.  A command is one method frame.  A message is a method frame
(`basic.publish`), a content header frame and body frames; the last two are cut
to the frame size every peer must accept.

The argument buffers of commands are allocated by the marshaller and freed by
the encoder; they are numbered, and `freed` is the history of the calls of
`free`.  A failed assertion ends the process; it is recorded in `failed`.

## Main definitions

* `AmqpCommand`, `methodFrame` — a command and its frame.
* `fragments` — the parts of a message that are sent in frames of their own.
* `AmqpEncoder.fsm` — the actions of the encoder.
* `AmqpEncoder.rest` — the bytes the encoder has still to send.

## Main results

* `AmqpEncoder.reads_eq` — the output is the encoding of the commands and the
  messages, whatever the sizes of the buffers.
* `length_fragments`, `flatten_fragments`, `length_le_of_mem_fragments` — how a
  message is cut.
-/

namespace ZeroMQ

/-! ## Constants of `i_amqp` -/

namespace Amqp

def frameMethod : UInt8 := 1
def frameHeader : UInt8 := 2
def frameBody : UInt8 := 3
def frameMinSize : Nat := 4096
def frameEnd : UInt8 := 206

def connectionId : UInt16 := 10
def channelId : UInt16 := 20
def queueId : UInt16 := 50
def basicId : UInt16 := 60
def basicPublishId : UInt16 := 40
def basicDeliverId : UInt16 := 60

end Amqp

open Amqp

/-- `amqp_marshaller_t::command_t`; `args_size` is the length of `args`. -/
structure AmqpCommand where
  channel : UInt16
  classId : UInt16
  methodId : UInt16
  args : List UInt8
  deriving DecidableEq, Repr

/-! ## Frames -/

/-- The type, the channel and the length of a frame. -/
def amqpFrameHeader (type : UInt8) (channel : UInt16) (length : Nat) :
    List UInt8 :=
  type :: (putUint16 channel ++ putUint32 (UInt32.ofNat length))

@[simp] theorem length_amqpFrameHeader (type : UInt8) (channel : UInt16)
    (length : Nat) : (amqpFrameHeader type channel length).length = 7 := rfl

/-- The length is that of the class, the method and the arguments. -/
def methodHeader (cmd : AmqpCommand) : List UInt8 :=
  amqpFrameHeader frameMethod cmd.channel (cmd.args.length + 2 + 2) ++
    putUint16 cmd.classId ++ putUint16 cmd.methodId

/-- A command on the wire. -/
def methodFrame (cmd : AmqpCommand) : List UInt8 :=
  methodHeader cmd ++ cmd.args ++ [frameEnd]

/-- A short string: its size, cut to a byte, and the string. -/
def shortstr (string : List UInt8) : List UInt8 :=
  UInt8.ofNat string.length :: string

/-- The arguments of `basic.publish`: a ticket, the default exchange, the queue
as the routing key, and two flags. -/
def publishArgs (queue : List UInt8) : List UInt8 :=
  putUint16 0 ++ [0] ++ shortstr queue ++ [0]

/-- The method frame that announces a message. -/
def publishFrame (channel : UInt16) (queue : List UInt8) : List UInt8 :=
  methodFrame
    { channel := channel, classId := basicId, methodId := basicPublishId,
      args := publishArgs queue }

/-- The payload of a content header: class, weight, size of the message, and no
properties. -/
def contentHeaderPayload (size : Nat) : List UInt8 :=
  putUint16 basicId ++ putUint16 0 ++ putUint64 (UInt64.ofNat size) ++
    putUint16 0

def contentHeaderFrame (channel : UInt16) (size : Nat) : List UInt8 :=
  amqpFrameHeader frameHeader channel 14 ++ contentHeaderPayload size ++
    [frameEnd]

/-- A part of a message on the wire. -/
def bodyFrame (channel : UInt16) (fragment : List UInt8) : List UInt8 :=
  amqpFrameHeader frameBody channel fragment.length ++ fragment ++ [frameEnd]

/-- The room for a message in a frame. -/
def fragmentSize : Nat := frameMinSize - 8

/-- The parts of a message; there is at least one. -/
def fragments (message : List UInt8) : List (List UInt8) :=
  if message.length ≤ fragmentSize then [message]
  else message.take fragmentSize :: fragments (message.drop fragmentSize)
termination_by message.length
decreasing_by
  rw [List.length_drop]
  have : 0 < fragmentSize := by decide
  omega

theorem flatten_fragments (message : List UInt8) :
    (fragments message).flatten = message := by
  fun_induction fragments message with
  | case1 message hle => exact List.flatten_singleton
  | case2 message hle ih =>
      rw [List.flatten_cons, ih, List.take_append_drop]

theorem length_le_of_mem_fragments (message : List UInt8) :
    ∀ fragment ∈ fragments message, fragment.length ≤ fragmentSize := by
  fun_induction fragments message with
  | case1 message hle =>
      intro fragment hmem
      rw [List.mem_singleton.mp hmem]
      exact hle
  | case2 message hle ih =>
      refine List.forall_mem_cons.mpr ⟨?_, ih⟩
      rw [List.length_take]
      exact Nat.min_le_left _ _

/-- The size of the message in units of the room in a frame, rounded up; an
empty message has a part, too. -/
theorem length_fragments (message : List UInt8) :
    (fragments message).length =
      max 1 ((message.length + (fragmentSize - 1)) / fragmentSize) := by
  have hsize : fragmentSize = 4088 := rfl
  fun_induction fragments message with
  | case1 message hle =>
      rw [hsize] at hle ⊢
      rw [List.length_singleton]
      omega
  | case2 message hle ih =>
      rw [List.length_cons, ih, List.length_drop]
      rw [hsize] at hle ⊢
      omega

/-- The body frames of a message. -/
def bodyFrames (channel : UInt16) (message : List UInt8) : List UInt8 :=
  (fragments message).flatMap (bodyFrame channel)

/-- The content header and the body frames of a message. -/
def contentFrames (channel : UInt16) (message : List UInt8) : List UInt8 :=
  contentHeaderFrame channel message.length ++ bodyFrames channel message

/-! ## `amqp_encoder_t` -/

/-- The actions of `amqp_encoder_t`. -/
inductive AmqpEncoderState where
  | messageReady
  | commandHeader
  | commandArguments
  | contentHeader
  | contentBodyFrameHeader
  | contentBody
  | frameEnd
  deriving DecidableEq, Repr

/-- The members of `amqp_encoder_t` and its marshaller.  Commands come with the
number of their argument buffer; `command` is `none` when `command.args` is
null.  `freed` is the history of `free`, `failed` of the assertions. -/
structure AmqpEncoderData (μ : Type) where
  mux : μ
  queue : List UInt8
  commandQueue : List (Nat × AmqpCommand)
  allocated : Nat
  command : Option (Nat × AmqpCommand)
  message : Message
  messageOffset : Nat
  flowOn : Bool
  messageChannel : UInt16
  freed : List Nat
  failed : Bool
  deriving DecidableEq, Repr

abbrev AmqpEncoder (μ : Type) := Encoder AmqpEncoderState (AmqpEncoderData μ)

namespace AmqpEncoder

variable {μ : Type} [Mux μ]

/-- The frame of `basic.publish` fits into `framebuf`. -/
def PublishFits (queue : List UInt8) : Prop := queue.length + 17 ≤ frameMinSize
  deriving Decidable

/-- The size of the data in the next body frame. -/
def bodySize (d : AmqpEncoderData μ) : Nat :=
  min (d.message.length - d.messageOffset) (frameMinSize - 8)

/-- `message_ready`. -/
def messageReady (d : AmqpEncoderData μ) :
    Option (EncoderStep AmqpEncoderState) × AmqpEncoderData μ :=
  match d.commandQueue with
  | (buffer, cmd) :: rest =>
      (some
        { data := methodHeader cmd, next := .commandHeader, beginning := true },
        { d with commandQueue := rest, command := some (buffer, cmd) })
  | [] =>
      if d.flowOn then
        match Mux.read d.mux with
        | (none, mux) => (none, { d with mux := mux, message := [] })
        | (some message, mux) =>
            let d := { d with mux := mux, message := message }
            if PublishFits d.queue then
              (some
                { data := publishFrame d.messageChannel d.queue,
                  next := .contentHeader, beginning := false }, d)
            else (none, { d with failed := true })
      else (none, d)

/-- The actions, in a process that has not ended. -/
def act (st : AmqpEncoderState) (d : AmqpEncoderData μ) :
    Option (EncoderStep AmqpEncoderState) × AmqpEncoderData μ :=
  match st with
  | .messageReady => messageReady d
  | .commandHeader =>
      (some
        { data := (d.command.elim [] fun c => c.2.args),
          next := .commandArguments, beginning := false }, d)
  | .commandArguments =>
      (some
        { data := [frameEnd], next := .messageReady, beginning := false },
        { d with
          command := none
          freed := d.freed ++ (d.command.map Prod.fst).toList })
  | .contentHeader =>
      (some
        { data := contentHeaderFrame d.messageChannel d.message.length,
          next := .contentBodyFrameHeader, beginning := false },
        { d with messageOffset := 0 })
  | .contentBodyFrameHeader =>
      (some
        { data := amqpFrameHeader frameBody d.messageChannel (bodySize d),
          next := .contentBody, beginning := false }, d)
  | .contentBody =>
      (some
        { data := (d.message.drop d.messageOffset).take (bodySize d),
          next := .frameEnd, beginning := false },
        { d with messageOffset := d.messageOffset + bodySize d })
  | .frameEnd =>
      if d.message.length = d.messageOffset then
        (some
          { data := [frameEnd], next := .messageReady, beginning := true }, d)
      else
        (some
          { data := [frameEnd], next := .contentBodyFrameHeader,
            beginning := false }, d)

/-- The actions. -/
def action (st : AmqpEncoderState) (d : AmqpEncoderData μ) :
    Option (EncoderStep AmqpEncoderState) × AmqpEncoderData μ :=
  if d.failed then (none, d) else act st d

/-- Only arguments and parts of messages can be empty; what comes after them is
not. -/
def fsm : EncoderFsm AmqpEncoderState (AmqpEncoderData μ) where
  action := action
  rank
    | .commandHeader => 1
    | .contentBody => 1
    | _ => 0
  bound := 2
  rank_lt := by
    rintro (_ | _ | _ | _ | _ | _ | _) <;> decide
  progress := by
    intro st d step d' hact hempty
    simp only [action] at hact
    split at hact
    · cases hact
    · cases st with
      | messageReady =>
          simp only [act, messageReady] at hact
          split at hact
          · cases hact
            cases hempty
          · split at hact
            · split at hact
              · cases hact
              · split at hact
                · cases hact
                  cases hempty
                · cases hact
            · cases hact
      | commandHeader =>
          cases hact
          exact Nat.zero_lt_one
      | contentBody =>
          cases hact
          exact Nat.zero_lt_one
      | frameEnd =>
          simp only [act] at hact
          split at hact <;> (cases hact; cases hempty)
      | commandArguments | contentHeader | contentBodyFrameHeader =>
          cases hact
          cases hempty

/-- What a connection starts with: AMQP 0-9-1. -/
def protocolHeader : List UInt8 := [65, 77, 81, 80, 0, 0, 9, 1]

/-- The constructor. -/
def create (mux : μ) (queue : List UInt8) : AmqpEncoder μ :=
  { data := protocolHeader, next := .messageReady, beginning := true,
    derived :=
      { mux := mux, queue := queue, commandQueue := [], allocated := 0,
        command := none, message := [], messageOffset := 0, flowOn := false,
        messageChannel := 0, freed := [], failed := false } }

/-- `flow`. -/
def flow (e : AmqpEncoder μ) (flowOn : Bool) (channel : UInt16) :
    AmqpEncoder μ :=
  { e with
    derived :=
      { e.derived with flowOn := flowOn, messageChannel := channel } }

/-- `reset`.  The arguments are freed, and `command.args` stays as it is. -/
def reset (e : AmqpEncoder μ) : AmqpEncoder μ :=
  { data := protocolHeader, next := .messageReady, beginning := true,
    derived :=
      { e.derived with
        flowOn := false
        messageChannel := 0
        freed := e.derived.freed ++ (e.derived.command.map Prod.fst).toList } }

/-- A method of the marshaller has put a command into its queue. -/
def push (e : AmqpEncoder μ) (cmd : AmqpCommand) : AmqpEncoder μ :=
  { e with
    derived :=
      { e.derived with
        commandQueue := e.derived.commandQueue ++ [(e.derived.allocated, cmd)]
        allocated := e.derived.allocated + 1 } }

/-- `encoder_t::read`. -/
def read (e : AmqpEncoder μ) (size : Nat) :
    AmqpEncoder μ × List UInt8 × Option Nat :=
  Encoder.read fsm e size

/-- Buffers of the given sizes are filled one after the other. -/
def reads (e : AmqpEncoder μ) (sizes : List Nat) : AmqpEncoder μ × List UInt8 :=
  Encoder.reads fsm e sizes

/-! ## The output -/

/-- The bytes of the commands queued and of the messages of the mux. -/
def queued (d : AmqpEncoderData (List Message)) : List UInt8 :=
  d.commandQueue.flatMap (fun c => methodFrame c.2) ++
    if d.flowOn then
      d.mux.flatMap fun message =>
        publishFrame d.messageChannel d.queue ++
          contentFrames d.messageChannel message
    else []

/-- The bytes the encoder has still to send, after those announced. -/
def rest (st : AmqpEncoderState) (d : AmqpEncoderData (List Message)) :
    List UInt8 :=
  match st with
  | .messageReady => queued d
  | .commandHeader =>
      (d.command.elim [] fun c => c.2.args) ++ [frameEnd] ++ queued d
  | .commandArguments => [frameEnd] ++ queued d
  | .contentHeader => contentFrames d.messageChannel d.message ++ queued d
  | .contentBodyFrameHeader =>
      bodyFrames d.messageChannel (d.message.drop d.messageOffset) ++ queued d
  | .contentBody =>
      (d.message.drop d.messageOffset).take fragmentSize ++ [frameEnd] ++
        (if d.message.length - d.messageOffset ≤ fragmentSize then []
          else bodyFrames d.messageChannel
            (d.message.drop (d.messageOffset + fragmentSize))) ++ queued d
  | .frameEnd =>
      [frameEnd] ++
        (if d.message.length = d.messageOffset then []
          else bodyFrames d.messageChannel
            (d.message.drop d.messageOffset)) ++ queued d

/-- What holds between two actions: the offset is in the message while that is
being sent, and no assertion can fail. -/
structure Ready (st : AmqpEncoderState) (d : AmqpEncoderData μ) : Prop where
  failed : d.failed = false
  fits : d.flowOn = true → PublishFits d.queue
  offset : st = .contentBodyFrameHeader ∨ st = .contentBody ∨ st = .frameEnd →
    d.messageOffset ≤ d.message.length

variable {st : AmqpEncoderState}

theorem action_of_ready {d : AmqpEncoderData μ} (h : Ready st d) :
    action st d = act st d := by
  rw [action, h.failed]
  rfl

/-- The part of a message that comes next, and those after it. -/
theorem bodyFrames_eq (channel : UInt16) (message : List UInt8) :
    bodyFrames channel message =
      amqpFrameHeader frameBody channel (min message.length fragmentSize) ++
        (message.take fragmentSize ++ [frameEnd] ++
          if message.length ≤ fragmentSize then []
          else bodyFrames channel (message.drop fragmentSize)) := by
  rw [bodyFrames, fragments]
  split
  · next hle =>
      rw [Nat.min_eq_left hle, List.take_of_length_le hle]
      simp [bodyFrame]
  · next hlt =>
      rw [Nat.min_eq_right (by omega), List.flatMap_cons, bodyFrame,
        List.length_take, Nat.min_eq_left (by omega)]
      simp [bodyFrames]

/-- An action sends the first part of what is to be sent. -/
theorem Ready.step {d d' : AmqpEncoderData (List Message)}
    {step : EncoderStep AmqpEncoderState} (h : Ready st d) (hact : action st d = (some step, d')) :
    Ready step.next d' ∧ rest st d = step.data ++ rest step.next d' := by
  rw [action_of_ready h] at hact
  cases st with
  | messageReady =>
      simp only [act, messageReady] at hact
      split at hact
      · next buffer cmd queue hqueue =>
          cases hact
          refine ⟨⟨h.failed, h.fits, by simp⟩, ?_⟩
          simp [rest, queued, hqueue, methodFrame]
      · next hqueue =>
          split at hact
          · next hflow =>
              split at hact
              · cases hact
              · next message mux hread =>
                  split at hact
                  · cases hact
                    refine ⟨⟨h.failed, h.fits, by simp⟩, ?_⟩
                    have hmux : d.mux = message :: mux := by
                      cases hm : d.mux with
                      | nil => rw [hm] at hread; cases hread
                      | cons m ms => rw [hm] at hread; cases hread; rfl
                    simp [rest, queued, hqueue, hflow, hmux]
                  · cases hact
          · cases hact
  | commandHeader | commandArguments =>
      cases hact
      exact ⟨⟨h.failed, h.fits, by simp⟩, by simp [rest, queued]⟩
  | contentHeader =>
      cases hact
      exact ⟨⟨h.failed, h.fits, by simp⟩, by
        simp [rest, queued, contentFrames]⟩
  | contentBodyFrameHeader =>
      cases hact
      refine ⟨⟨h.failed, h.fits, fun _ => h.offset (by simp)⟩, ?_⟩
      simp only [rest, bodyFrames_eq _ (d.message.drop d.messageOffset),
        List.length_drop, List.drop_drop, List.append_assoc]
      rfl
  | contentBody =>
      have hoffset := h.offset (by simp)
      cases hact
      refine ⟨⟨h.failed, h.fits, fun _ => ?_⟩, ?_⟩
      · simp only [bodySize]
        omega
      · have hsize : bodySize d =
            min (d.message.length - d.messageOffset) fragmentSize := rfl
        simp only [rest, queued]
        by_cases hle : d.message.length - d.messageOffset ≤ fragmentSize
        · -- the last part
          have hall : d.message.length = d.messageOffset + bodySize d := by
            omega
          have hlen := List.length_drop (i := d.messageOffset) (l := d.message)
          rw [if_pos hle, if_pos hall, List.take_of_length_le (by omega),
            List.take_of_length_le (by omega)]
          simp only [List.append_assoc]
        · have hmore : d.message.length ≠ d.messageOffset + bodySize d := by
            omega
          rw [if_neg hle, if_neg hmore, hsize, Nat.min_eq_right (by omega)]
          simp only [List.append_assoc]
  | frameEnd =>
      have hoffset := h.offset (by simp)
      simp only [act] at hact
      split at hact
      · next hall =>
          cases hact
          exact ⟨⟨h.failed, h.fits, by simp⟩, by simp [rest, hall]⟩
      · next hmore =>
          cases hact
          exact ⟨⟨h.failed, h.fits, fun _ => hoffset⟩, by simp [rest, hmore]⟩

/-- An action that returns false has nothing to send. -/
theorem Ready.stop {d d' : AmqpEncoderData (List Message)}
    (h : Ready st d) (hact : action st d = (none, d')) :
    Ready st d' ∧ rest st d = [] ∧ rest st d' = [] := by
  rw [action_of_ready h] at hact
  cases st with
  | messageReady =>
      simp only [act, messageReady] at hact
      split at hact
      · cases hact
      · next hqueue =>
          split at hact
          · next hflow =>
              split at hact
              · next mux hread =>
                  have hmux : d.mux = [] ∧ mux = [] := by
                    cases hm : d.mux with
                    | nil => rw [hm] at hread; cases hread; exact ⟨rfl, rfl⟩
                    | cons m ms => rw [hm] at hread; cases hread
                  cases hact
                  refine ⟨⟨h.failed, h.fits, by simp⟩, ?_⟩
                  simp [rest, queued, hqueue, hmux]
              · split at hact
                · cases hact
                · next hfits => exact (hfits (h.fits hflow)).elim
          · next hflow =>
              cases hact
              refine ⟨h, ?_⟩
              simp [rest, queued, hqueue, hflow]
  | frameEnd =>
      simp only [act] at hact
      split at hact <;> cases hact
  | commandHeader | commandArguments | contentHeader | contentBodyFrameHeader
  | contentBody => cases hact

/-- The output is the encoding of the commands and the messages, whatever the
sizes of the buffers. -/
theorem reads_eq (e : AmqpEncoder (List Message)) (sizes : List Nat)
    (h : Ready e.next e.derived) :
    (e.reads sizes).2 =
      (e.data ++ rest e.next e.derived).take sizes.sum := by
  show (Encoder.reads fsm e sizes).2 = (Encoder.unsent rest e).take sizes.sum
  exact Encoder.reads_eq (P := Ready) (fun h hact => h.step hact)
    (fun h hact => h.stop hact) e sizes h

end AmqpEncoder

end ZeroMQ
