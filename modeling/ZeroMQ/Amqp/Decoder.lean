import ZeroMQ.Amqp.Encoder

/-!
# `amqp_decoder_t`

The decoder of `libzmq/amqp_decoder.cpp` passes the commands it receives to its
unmarshaller and the messages to a demux.  Frames are read into one buffer,
`framebuf`, each one over the remains of those before it; the bodies of messages
are read in place.

The content header has a frame of its own, but its length is kept in a local
variable that hides the member `bytes_read`.  Its payload is therefore checked
with the length of the method frame before it, at a place of `framebuf` that may
hold something older.

While the unmarshaller is being called, its callback may switch the flow of the
decoder, or reset it (`DecoderCall`).  A failed assertion ends the process; it
is recorded in `failed`.

## Main definitions

* `AmqpUnmarshaller` — where commands go.
* `AmqpDecoder.fsm` — the actions of the decoder.
-/

namespace ZeroMQ

open Amqp

/-- What is done to a decoder from outside while it calls its unmarshaller. -/
inductive DecoderCall where
  | flow (flowOn : Bool) (channel : UInt16)
  | gap
  | reset
  deriving DecidableEq, Repr

/-- `amqp_unmarshaller_t` with its callback: `write` is `none` when an assertion
fails. -/
class AmqpUnmarshaller (κ : Type) where
  write : κ → AmqpCommand → Option (κ × List DecoderCall)

/-- A callback that does nothing. -/
instance : AmqpUnmarshaller Unit where
  write _ _ := some ((), [])

/-- The actions of `amqp_decoder_t`. -/
inductive AmqpDecoderState where
  | methodFrameHeaderReady
  | methodPayloadReady
  | contentHeaderFrameHeaderReady
  | contentHeaderPayloadReady
  | contentBodyFrameHeaderReady
  | contentBodyPayloadReady
  | contentBodyFrameEndReady
  deriving DecidableEq, Repr

/-- The members of `amqp_decoder_t`.  `message` holds the bytes of the message
before `message_offset`, and `messageSize` is the size it has been allocated
with.  `commands` and `pushed` are the histories of the unmarshaller and the
demux, `failed` that of the assertions. -/
structure AmqpDecoderData (δ κ : Type) where
  demux : δ
  callback : κ
  bytesRead : Nat
  channel : UInt16
  message : Message
  messageSize : Nat
  flowOn : Bool
  messageChannel : UInt16
  framebuf : List UInt8
  commands : List AmqpCommand
  pushed : List Message
  failed : Bool
  deriving DecidableEq, Repr

abbrev AmqpDecoder (δ κ : Type) := Decoder AmqpDecoderState (AmqpDecoderData δ κ)

/-- The beginning of a buffer is overwritten. -/
def overwrite (framebuf bytes : List UInt8) : List UInt8 :=
  bytes ++ framebuf.drop bytes.length

namespace AmqpDecoder

variable {δ κ : Type} [IDemux δ] [AmqpUnmarshaller κ]

/-- What an action returns. -/
abbrev Result (δ κ : Type) :=
  Option (Nat × AmqpDecoderState) × AmqpDecoderData δ κ

/-- `flow`, on the members. -/
def setFlow (flowOn : Bool) (channel : UInt16) (d : AmqpDecoderData δ κ) :
    AmqpDecoderData δ κ :=
  { d with flowOn := flowOn, messageChannel := channel }

/-- `reset`, on the members. -/
def clear (d : AmqpDecoderData δ κ) : AmqpDecoderData δ κ :=
  { setFlow false 0 d with message := [], messageSize := 0 }

/-- The call of a callback. -/
def called (d : AmqpDecoderData δ κ) : DecoderCall → AmqpDecoderData δ κ
  | .flow flowOn channel => setFlow flowOn channel d
  | .gap => { d with demux := IDemux.gap d.demux }
  | .reset => clear d

omit [AmqpUnmarshaller κ] in
/-- What the callback does to the decoder leaves the callback, the history of
the commands and that of the assertions alone. -/
theorem foldl_called (calls : List DecoderCall) (d : AmqpDecoderData δ κ) :
    (calls.foldl called d).callback = d.callback ∧
      (calls.foldl called d).commands = d.commands ∧
      (calls.foldl called d).failed = d.failed := by
  induction calls generalizing d with
  | nil => exact ⟨rfl, rfl, rfl⟩
  | cons call calls ih =>
      rw [List.foldl_cons, (ih _).1, (ih _).2.1, (ih _).2.2]
      cases call <;> exact ⟨rfl, rfl, rfl⟩

/-- An assertion fails. -/
def fail (d : AmqpDecoderData δ κ) : Result δ κ := (none, { d with failed := true })

/-- `method_frame_header_ready`. -/
def methodFrameHeaderReady (d : AmqpDecoderData δ κ) : Result δ κ :=
  if d.framebuf.headD 0 = frameMethod then
    let d :=
      { d with
        channel := getUint16 (d.framebuf.drop 1)
        bytesRead := (getUint32 (d.framebuf.drop 3)).toNat }
    if d.bytesRead + 1 ≤ frameMinSize then
      (some (d.bytesRead + 1, .methodPayloadReady), d)
    else fail d
  else fail d

/-- `method_payload_ready`. -/
def methodPayloadReady (d : AmqpDecoderData δ κ) : Result δ κ :=
  let classId := getUint16 d.framebuf
  let methodId := getUint16 (d.framebuf.drop 2)
  if 5 ≤ d.bytesRead ∧ d.framebuf.getD d.bytesRead 0 = frameEnd then
    if classId = basicId ∧ methodId = basicDeliverId then
      if d.flowOn = true ∧ d.channel = d.messageChannel then
        (some (7, .contentHeaderFrameHeaderReady), d)
      else fail d
    else
      let cmd : AmqpCommand :=
        { channel := d.channel, classId := classId, methodId := methodId,
          args := (d.framebuf.drop 4).take (d.bytesRead - 4) }
      let d := { d with commands := d.commands ++ [cmd] }
      match AmqpUnmarshaller.write d.callback cmd with
      | none => fail d
      | some (callback, calls) =>
          (some (7, .methodFrameHeaderReady),
            calls.foldl called { d with callback := callback })
  else fail d

/-- `content_header_frame_header_ready`.  The length is a variable of 32 bits,
and `bytes_read` stays what it was. -/
def contentHeaderFrameHeaderReady (d : AmqpDecoderData δ κ) : Result δ κ :=
  let bytesRead := getUint32 (d.framebuf.drop 3)
  if d.framebuf.headD 0 = frameHeader ∧
      getUint16 (d.framebuf.drop 1) = d.channel ∧
      (bytesRead + 1).toNat ≤ frameMinSize then
    (some ((bytesRead + 1).toNat, .contentHeaderPayloadReady), d)
  else fail d

/-- `content_header_payload_ready`. -/
def contentHeaderPayloadReady (d : AmqpDecoderData δ κ) : Result δ κ :=
  if 14 ≤ d.bytesRead ∧ getUint16 d.framebuf = basicId ∧
      getUint16 (d.framebuf.drop 2) = 0 ∧
      d.framebuf.getD d.bytesRead 0 = frameEnd then
    (some (7, .contentBodyFrameHeaderReady),
      { d with
        message := []
        messageSize := (getUint64 (d.framebuf.drop 4)).toNat })
  else fail d

/-- `content_body_frame_header_ready`. -/
def contentBodyFrameHeaderReady (d : AmqpDecoderData δ κ) : Result δ κ :=
  let size := (getUint32 (d.framebuf.drop 3)).toNat
  if d.framebuf.headD 0 = frameBody ∧
      getUint16 (d.framebuf.drop 1) = d.channel ∧
      d.message.length + size ≤ d.messageSize then
    (some (size, .contentBodyPayloadReady), { d with bytesRead := size })
  else fail d

/-- `content_body_payload_ready`; the bytes have been read into the message. -/
def contentBodyPayloadReady (buf : List UInt8) (d : AmqpDecoderData δ κ) :
    Result δ κ :=
  (some (1, .contentBodyFrameEndReady), { d with message := d.message ++ buf })

/-- `content_body_frame_end_ready`. -/
def contentBodyFrameEndReady (d : AmqpDecoderData δ κ) : Result δ κ :=
  if d.framebuf.headD 0 = frameEnd then
    if d.message.length = d.messageSize then
      match IDemux.write d.demux d.message with
      | (false, demux) => (none, { d with demux := demux })
      | (true, demux) =>
          (some (7, .methodFrameHeaderReady),
            { d with
              demux := IDemux.flush demux
              pushed := d.pushed ++ [d.message] })
    else (some (7, .contentBodyFrameHeaderReady), d)
  else fail d

/-- The bytes read are in `framebuf`. -/
def fill (buf : List UInt8) (d : AmqpDecoderData δ κ) : AmqpDecoderData δ κ :=
  { d with framebuf := overwrite d.framebuf buf }

/-- The actions, in a process that has not ended. -/
def act (st : AmqpDecoderState) (buf : List UInt8) (d : AmqpDecoderData δ κ) :
    Result δ κ :=
  match st with
  | .methodFrameHeaderReady => methodFrameHeaderReady (fill buf d)
  | .methodPayloadReady => methodPayloadReady (fill buf d)
  | .contentHeaderFrameHeaderReady => contentHeaderFrameHeaderReady (fill buf d)
  | .contentHeaderPayloadReady => contentHeaderPayloadReady (fill buf d)
  | .contentBodyFrameHeaderReady => contentBodyFrameHeaderReady (fill buf d)
  | .contentBodyPayloadReady => contentBodyPayloadReady buf d
  | .contentBodyFrameEndReady => contentBodyFrameEndReady (fill buf d)

/-- The actions. -/
def action (st : AmqpDecoderState) (buf : List UInt8)
    (d : AmqpDecoderData δ κ) : Result δ κ :=
  if d.failed then (none, d) else act st buf d

/-- The content header and a body frame can be empty; what comes after them is
not. -/
def fsm : DecoderFsm AmqpDecoderState (AmqpDecoderData δ κ) where
  action := action
  rank
    | .contentHeaderFrameHeaderReady => 1
    | .contentBodyFrameHeaderReady => 1
    | _ => 0
  progress := by
    intro st buf d st' d' hact
    simp only [action] at hact
    split at hact
    · cases hact
    · cases st with
      | methodFrameHeaderReady =>
          simp only [act, methodFrameHeaderReady, fail] at hact
          split at hact
          · split at hact <;> cases hact
          · cases hact
      | methodPayloadReady =>
          simp only [act, methodPayloadReady, fail] at hact
          split at hact
          · split at hact
            · split at hact <;> cases hact
            · split at hact <;> cases hact
          · cases hact
      | contentHeaderFrameHeaderReady =>
          simp only [act, contentHeaderFrameHeaderReady, fail] at hact
          split at hact
          · simp only [Prod.mk.injEq, Option.some.injEq] at hact
            obtain ⟨⟨_, rfl⟩, _⟩ := hact
            exact Nat.zero_lt_one
          · cases hact
      | contentHeaderPayloadReady =>
          simp only [act, contentHeaderPayloadReady, fail] at hact
          split at hact <;> cases hact
      | contentBodyFrameHeaderReady =>
          simp only [act, contentBodyFrameHeaderReady, fail] at hact
          split at hact
          · simp only [Prod.mk.injEq, Option.some.injEq] at hact
            obtain ⟨⟨_, rfl⟩, _⟩ := hact
            exact Nat.zero_lt_one
          · cases hact
      | contentBodyPayloadReady => cases hact
      | contentBodyFrameEndReady =>
          simp only [act, contentBodyFrameEndReady, fail] at hact
          split at hact
          · split at hact
            · split at hact <;> cases hact
            · cases hact
          · cases hact

/-- The constructor. -/
def create (demux : δ) (callback : κ) : AmqpDecoder δ κ :=
  { buf := [], toRead := 7, next := .methodFrameHeaderReady,
    derived :=
      { demux := demux, callback := callback, bytesRead := 0, channel := 0,
        message := [], messageSize := 0, flowOn := false, messageChannel := 0,
        framebuf := List.replicate frameMinSize 0, commands := [], pushed := [],
        failed := false } }

/-- `flow`. -/
def flow (d : AmqpDecoder δ κ) (flowOn : Bool) (channel : UInt16) :
    AmqpDecoder δ κ :=
  { d with derived := setFlow flowOn channel d.derived }

/-- `reset`; what has been read of a frame is left in `framebuf`. -/
def reset (d : AmqpDecoder δ κ) : AmqpDecoder δ κ :=
  { buf := [], toRead := 7, next := .methodFrameHeaderReady,
    derived :=
      clear
        (if d.next = .contentBodyPayloadReady then d.derived
          else fill d.buf d.derived) }

/-- `decoder_t::write`. -/
def write (d : AmqpDecoder δ κ) (data : List UInt8) : AmqpDecoder δ κ × Nat :=
  Decoder.write fsm d data

/-- The pieces are written one after the other, as long as each of them is
consumed completely. -/
def writes (d : AmqpDecoder δ κ) (pieces : List (List UInt8)) :
    Option (AmqpDecoder δ κ) :=
  Decoder.writes fsm d pieces

/-- The decoder is waiting for a method frame. -/
structure Waiting (d : AmqpDecoder δ κ) : Prop where
  buf : d.buf = []
  toRead : d.toRead = 7
  next : d.next = .methodFrameHeaderReady
  failed : d.derived.failed = false

/-! ## Reading `framebuf` -/

omit [IDemux δ] [AmqpUnmarshaller κ] in
theorem getD_overwrite_of_le {framebuf bytes : List UInt8} {i : Nat}
    (h : bytes.length ≤ i) :
    (overwrite framebuf bytes).getD i 0 = framebuf.getD i 0 := by
  simp only [overwrite, List.getD_eq_getElem?_getD,
    List.getElem?_append_right h, List.getElem?_drop]
  congr 2
  omega

end AmqpDecoder

theorem amqpFrameHeader_fields (type : UInt8) (channel : UInt16) (length : Nat)
    (more : List UInt8) :
    (amqpFrameHeader type channel length ++ more).headD 0 = type ∧
      getUint16 ((amqpFrameHeader type channel length ++ more).drop 1) =
        channel ∧
      getUint32 ((amqpFrameHeader type channel length ++ more).drop 3) =
        UInt32.ofNat length :=
  ⟨rfl, getUint16_append channel _, getUint32_append (UInt32.ofNat length) _⟩

end ZeroMQ
