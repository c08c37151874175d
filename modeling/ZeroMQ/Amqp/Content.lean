import ZeroMQ.Amqp.RoundTrip

/-!
# Messages between AMQP codecs

A message arrives as a `basic.deliver` frame, a content header frame and body
frames.  The last two are what the encoder sends after `basic.publish`.  The
content header is checked with the length of the `basic.deliver` frame; this is
longer than the content header, so the octet that is checked is the frame-end
octet of the former, and it is still in `framebuf`.

## Main definitions

* `deliver` — the marshaller's `basic_deliver`.
* `ContentHeader` — a content header on the wire, with any properties.
* `AmqpDecoder.Receiving` — the decoder has a part of a message.
* `AmqpDecoder.Pushed`, `AmqpDecoder.Refused` — what the demux has done with it.

## Main results

* `AmqpDecoder.feed_bodyFrames` — the parts of a message are put together again.
* `AmqpDecoder.feed_contentHeader` — which content headers pass, and after which
  commands.
* `content_round_trip` — a message passes through the codecs, and how it is cut
  into frames.
-/

namespace ZeroMQ

open Amqp

variable {cmd : AmqpCommand}

/-- `amqp_marshaller_t::basic_deliver`. -/
def deliver (channel : UInt16) (consumerTag : List UInt8) (deliveryTag : UInt64)
    (redelivered : Bool) (exchange routingKey : List UInt8) : AmqpCommand :=
  { channel := channel, classId := basicId, methodId := basicDeliverId,
    args := shortstr consumerTag ++ putUint64 deliveryTag ++
      [if redelivered then 1 else 0] ++ shortstr exchange ++
      shortstr routingKey }

theorem length_deliver_args (channel : UInt16) (consumerTag : List UInt8)
    (deliveryTag : UInt64) (redelivered : Bool)
    (exchange routingKey : List UInt8) :
    (deliver channel consumerTag deliveryTag redelivered exchange
      routingKey).args.length =
      consumerTag.length + exchange.length + routingKey.length + 12 := by
  simp only [deliver, shortstr, List.length_append, List.length_cons,
    List.length_nil, show (putUint64 deliveryTag).length = 8 from rfl]
  omega

namespace AmqpDecoder

variable {δ κ : Type} [IDemux δ] [AmqpUnmarshaller κ]
  {base derived : AmqpDecoderData δ κ} {channel : UInt16} {size : Nat}
  {received : List UInt8}

/-- The first bytes of a message of `size` bytes have been received since
`base`. -/
structure Receiving (base : AmqpDecoderData δ κ) (channel : UInt16)
    (size : Nat) (received : List UInt8) (derived : AmqpDecoderData δ κ) :
    Prop where
  failed : derived.failed = false
  channel : derived.channel = channel
  message : derived.message = received
  messageSize : derived.messageSize = size
  pushed : derived.pushed = base.pushed
  commands : derived.commands = base.commands
  flow : derived.flowOn = base.flowOn ∧
    derived.messageChannel = base.messageChannel

/-- The header of a body frame and its payload, which may be empty. -/
theorem feed_bodyPayload (h : Receiving base channel size received derived)
    {fragment : List UInt8} (hfragment : fragment.length < 2 ^ 32)
    (hfits : received.length + fragment.length ≤ size) :
    ∃ derived', Decoder.feed fsm
        (Decoder.nextStep 7 .contentBodyFrameHeaderReady derived)
        (amqpFrameHeader frameBody channel fragment.length ++ fragment) =
          (true, Decoder.nextStep 1 .contentBodyFrameEndReady derived') ∧
      Receiving base channel size (received ++ fragment) derived' := by
  obtain ⟨htype, hchannel, hlength⟩ := amqpFrameHeader_fields frameBody
    channel fragment.length (derived.framebuf.drop 7)
  let filled : AmqpDecoderData δ κ :=
    { fill (amqpFrameHeader frameBody channel fragment.length) derived with
      bytesRead := fragment.length }
  have hheader : fsm.action .contentBodyFrameHeaderReady
      (amqpFrameHeader frameBody channel fragment.length) derived =
        (some (fragment.length, .contentBodyPayloadReady), filled) := by
    show action _ _ _ = _
    rw [action_of_ok h.failed]
    simp only [act, contentBodyFrameHeaderReady, fill, overwrite,
      length_amqpFrameHeader, htype, hchannel, hlength,
      toNat_ofNat_length hfragment, h.channel, h.message, h.messageSize,
      hfits, and_self, if_true, filled]
  have hpayload : fsm.action .contentBodyPayloadReady fragment filled =
      (some (1, .contentBodyFrameEndReady),
        { filled with message := received ++ fragment }) := by
    show action _ _ _ = _
    rw [action_of_ok (show filled.failed = false from h.failed)]
    simp only [act, contentBodyPayloadReady,
      show filled.message = received from h.message]
  refine ⟨{ filled with message := received ++ fragment }, ?_,
    ⟨h.failed, h.channel, rfl, h.messageSize, h.pushed, h.commands, h.flow⟩⟩
  rw [Decoder.feed_append, Decoder.feed_of_some rfl rfl
    (show (7 : Nat) ≠ 0 by decide) hheader]
  by_cases hnil : fragment = []
  · -- the payload is empty, and its action is taken at once
    subst hnil
    rw [Decoder.settle_of_some rfl hpayload,
      Decoder.settle_of_pos (show (1 : Nat) ≠ 0 by decide), if_pos rfl]
    rfl
  · have hpos : fragment.length ≠ 0 := by
      rwa [ne_eq, List.length_eq_zero_iff]
    rw [Decoder.settle_of_pos hpos, if_pos rfl,
      Decoder.feed_of_some rfl rfl hpos hpayload,
      Decoder.settle_of_pos (show (1 : Nat) ≠ 0 by decide)]

theorem feed_bodyFrame (h : Receiving base channel size received derived)
    {fragment : List UInt8} (hfragment : fragment.length < 2 ^ 32)
    (hfits : received.length + fragment.length < size) :
    ∃ derived', Decoder.feed fsm
        (Decoder.nextStep 7 .contentBodyFrameHeaderReady derived)
        (bodyFrame channel fragment) =
          (true, Decoder.nextStep 7 .contentBodyFrameHeaderReady derived') ∧
      Receiving base channel size (received ++ fragment) derived' := by
  obtain ⟨middle, hfeed, hmiddle⟩ :=
    feed_bodyPayload h hfragment (Nat.le_of_lt hfits)
  have hact : fsm.action .contentBodyFrameEndReady [frameEnd] middle =
      (some (7, .contentBodyFrameHeaderReady), fill [frameEnd] middle) := by
    show action _ _ _ = _
    rw [action_of_ok hmiddle.failed]
    have hmore : middle.message.length ≠ middle.messageSize := by
      rw [hmiddle.message, hmiddle.messageSize, List.length_append]
      omega
    simp only [act, contentBodyFrameEndReady, fill, overwrite,
      List.singleton_append, List.headD_cons, if_true]
    exact if_neg hmore
  refine ⟨fill [frameEnd] middle, ?_, { hmiddle with }⟩
  rw [bodyFrame, Decoder.feed_append, hfeed, if_pos rfl,
    Decoder.feed_of_some rfl rfl (show (1 : Nat) ≠ 0 by decide) hact,
    Decoder.settle_of_pos (show (7 : Nat) ≠ 0 by decide)]

/-- The body frames of the rest of a message, up to the last octet. -/
theorem feed_bodyFrames (message : List UInt8)
    (h : Receiving base channel size received derived)
    (hsize : received.length + message.length = size) :
    ∃ bytes derived', bodyFrames channel message = bytes ++ [frameEnd] ∧
      Decoder.feed fsm
        (Decoder.nextStep 7 .contentBodyFrameHeaderReady derived) bytes =
          (true, Decoder.nextStep 1 .contentBodyFrameEndReady derived') ∧
      Receiving base channel size (received ++ message) derived' := by
  have hroom : fragmentSize = 4088 := rfl
  unfold bodyFrames
  fun_induction fragments message generalizing received derived with
  | case1 message hle =>
      obtain ⟨derived', hfeed, h'⟩ :=
        feed_bodyPayload h (by omega) (Nat.le_of_eq hsize)
      exact ⟨_, derived', List.flatMap_singleton _ _, hfeed, h'⟩
  | case2 message hlt ih =>
      have hlen : (message.take fragmentSize).length = fragmentSize := by
        rw [List.length_take]
        omega
      obtain ⟨middle, hfeed, hmiddle⟩ := feed_bodyFrame h
        (show (message.take fragmentSize).length < 2 ^ 32 by omega)
        (by omega)
      obtain ⟨bytes, derived', hbytes, hfeed', h'⟩ := ih hmiddle (by
        rw [List.length_append, List.length_drop, hlen]
        omega)
      rw [List.append_assoc, List.take_append_drop] at h'
      refine ⟨bodyFrame channel (message.take fragmentSize) ++ bytes, derived',
        ?_, ?_, h'⟩
      · rw [List.flatMap_cons, hbytes, List.append_assoc]
      · rw [Decoder.feed_append, hfeed, if_pos rfl, hfeed']

/-! ## The headers -/

/-- `framebuf` and the members after the frame of a `basic.deliver` command. -/
def afterDeliver (derived : AmqpDecoderData δ κ) (cmd : AmqpCommand) :
    AmqpDecoderData δ κ :=
  fill (methodPayload cmd ++ [frameEnd])
    (afterMethodHeader derived cmd.channel (cmd.args.length + 4))

theorem feed_deliver {d : AmqpDecoder δ κ} (h : Waiting d)
    (hflow : d.derived.flowOn = true) (hdeliver : IsDeliver cmd)
    (hchannel : cmd.channel = d.derived.messageChannel) (hnil : cmd.args ≠ [])
    (hfit : cmd.args.length + 5 ≤ frameMinSize) :
    Decoder.feed fsm d (methodFrame cmd) =
      (true, Decoder.nextStep 7 .contentHeaderFrameHeaderReady
        (afterDeliver d.derived cmd)) := by
  have hmethod : fsm.action .methodPayloadReady
      (methodPayload cmd ++ [frameEnd])
      (afterMethodHeader d.derived cmd.channel (cmd.args.length + 4)) =
        (some (7, .contentHeaderFrameHeaderReady),
          afterDeliver d.derived cmd) := by
    have hok : (afterMethodHeader d.derived cmd.channel
        (cmd.args.length + 4)).failed = false := h.failed
    have hon : (afterDeliver d.derived cmd).flowOn = true ∧
        cmd.channel = (afterDeliver d.derived cmd).messageChannel :=
      ⟨hflow, hchannel⟩
    show action _ _ _ = _
    rw [action_methodPayload hok rfl rfl]
    simp only [if_neg hnil, if_pos hdeliver]
    exact if_pos hon
  rw [feed_methodFrame h cmd hfit,
    Decoder.feed_of_some rfl (length_payload cmd) (Nat.succ_ne_zero _) hmethod,
    Decoder.settle_of_pos (show (7 : Nat) ≠ 0 by decide)]

end AmqpDecoder

/-- A content header: the class, the weight, the size of the message, the
property flags with the properties, and the octet that ends the frame.  The
frame fits into `framebuf`. -/
structure ContentHeader where
  classId : UInt16
  weight : UInt16
  bodySize : UInt64
  properties : List UInt8
  endOctet : UInt8
  flags : 2 ≤ properties.length
  fits : properties.length + 13 ≤ frameMinSize

namespace ContentHeader

/-- The payload and the octet behind it. -/
def payload (h : ContentHeader) : List UInt8 :=
  putUint16 h.classId ++ putUint16 h.weight ++ putUint64 h.bodySize ++
    h.properties ++ [h.endOctet]

/-- The length of the payload. -/
def size (h : ContentHeader) : Nat := h.properties.length + 12

/-- The content header on the wire. -/
def frame (h : ContentHeader) (channel : UInt16) : List UInt8 :=
  amqpFrameHeader frameHeader channel h.size ++ h.payload

theorem length_payload (h : ContentHeader) : h.payload.length = h.size + 1 := by
  simp only [payload, List.length_append, List.length_singleton, size,
    show (putUint16 h.classId).length = 2 from rfl,
    show (putUint16 h.weight).length = 2 from rfl,
    show (putUint64 h.bodySize).length = 8 from rfl]
  omega

theorem payload_fields (h : ContentHeader) (framebuf : List UInt8) :
    getUint16 (overwrite framebuf h.payload) = h.classId ∧
      getUint16 ((overwrite framebuf h.payload).drop 2) = h.weight ∧
      getUint64 ((overwrite framebuf h.payload).drop 4) = h.bodySize := by
  have hfields : overwrite framebuf h.payload =
      putUint16 h.classId ++ (putUint16 h.weight ++ (putUint64 h.bodySize ++
        (h.properties ++ h.endOctet :: framebuf.drop h.payload.length))) := by
    simp only [overwrite, payload, List.append_assoc, List.singleton_append]
  rw [hfields]
  exact ⟨getUint16_append _ _, getUint16_append h.weight _,
    getUint64_append h.bodySize _⟩

/-- The octet that `content_header_payload_ready` takes for the end of the
frame, after a method frame of `length` bytes: it is looked for where that frame
had its own. -/
def checked (h : ContentHeader) (length : Nat) : UInt8 :=
  if length ≤ h.size then h.payload.getD length 0 else frameEnd

/-- The content header that the encoder sends. -/
def plain (bodySize : UInt64) : ContentHeader :=
  { classId := basicId, weight := 0, bodySize := bodySize, properties := [0, 0]
    endOctet := frameEnd, flags := by decide, fits := by decide }

theorem frame_plain (channel : UInt16) (size : Nat) :
    (plain (UInt64.ofNat size)).frame channel =
      contentHeaderFrame channel size :=
  (List.append_assoc _ _ _).symm

end ContentHeader

namespace AmqpDecoder

variable {δ κ : Type} [IDemux δ] [AmqpUnmarshaller κ]
  {base derived : AmqpDecoderData δ κ} {channel : UInt16} {size : Nat}
  {received : List UInt8}

omit [IDemux δ] [AmqpUnmarshaller κ] in
/-- The end of the `basic.deliver` frame is in `framebuf` if it has not been
overwritten by the content header. -/
theorem getD_afterDeliver (derived : AmqpDecoderData δ κ) (cmd : AmqpCommand)
    (hlong : 12 ≤ cmd.args.length) (header : ContentHeader) :
    (overwrite (overwrite (afterDeliver derived cmd).framebuf
      (amqpFrameHeader frameHeader cmd.channel header.size))
        header.payload).getD (cmd.args.length + 4) 0 =
      header.checked (cmd.args.length + 4) := by
  have hlen := header.length_payload
  unfold ContentHeader.checked
  split
  · next hle =>
      simp only [overwrite, List.getD_eq_getElem?_getD]
      rw [List.getElem?_append_left (by omega)]
  · next hgt =>
      rw [getD_overwrite_of_le (by omega),
        getD_overwrite_of_le (by rw [length_amqpFrameHeader]; omega)]
      exact (methodPayload_fields cmd _).2.2.2

/-- What `content_header_payload_ready` asserts, after a `basic.deliver`
command. -/
def Passes (cmd : AmqpCommand) (header : ContentHeader) : Prop :=
  header.classId = basicId ∧ header.weight = 0 ∧
    header.checked (cmd.args.length + 4) = frameEnd
  deriving Decidable

omit [IDemux δ] [AmqpUnmarshaller κ] in
/-- `content_header_payload_ready`, after a `basic.deliver` command. -/
theorem contentHeaderPayloadReady_iff (hlong : 12 ≤ cmd.args.length)
    (header : ContentHeader) :
    contentHeaderPayloadReady (fill header.payload
      (fill (amqpFrameHeader frameHeader cmd.channel header.size)
        (afterDeliver derived cmd))) =
      let d := fill header.payload
        (fill (amqpFrameHeader frameHeader cmd.channel header.size)
          (afterDeliver derived cmd))
      if Passes cmd header then
        (some (7, .contentBodyFrameHeaderReady),
          { d with message := [], messageSize := header.bodySize.toNat })
      else fail d := by
  obtain ⟨hclass, hweight, hbody⟩ := header.payload_fields
    (overwrite (afterDeliver derived cmd).framebuf
      (amqpFrameHeader frameHeader cmd.channel header.size))
  have hread : (afterDeliver derived cmd).bytesRead = cmd.args.length + 4 := rfl
  simp only [contentHeaderPayloadReady, fill, hread, hclass, hweight, hbody,
    getD_afterDeliver derived cmd hlong header]
  by_cases hpasses : Passes cmd header
  · rw [if_pos hpasses]
    exact if_pos ⟨by omega, hpasses⟩
  · rw [if_neg hpasses]
    exact if_neg fun hall => hpasses hall.2

/-- The content header, after the frame of a `basic.deliver` command.  It is
checked at the end of the latter. -/
theorem feed_contentHeader {d : AmqpDecoder δ κ} (h : Waiting d)
    (hflow : d.derived.flowOn = true) (hdeliver : IsDeliver cmd)
    (hchannel : cmd.channel = d.derived.messageChannel)
    (hlong : 12 ≤ cmd.args.length) (hfit : cmd.args.length + 5 ≤ frameMinSize)
    (header : ContentHeader) :
    (Passes cmd header ∧
      ∃ derived', Decoder.feed fsm d
          (methodFrame cmd ++ header.frame cmd.channel) =
            (true, Decoder.nextStep 7 .contentBodyFrameHeaderReady derived') ∧
        Receiving d.derived cmd.channel header.bodySize.toNat [] derived') ∨
    (¬Passes cmd header ∧
      ∃ stuck, Decoder.feed fsm d
          (methodFrame cmd ++ header.frame cmd.channel) = (false, stuck) ∧
        stuck.derived.failed = true) := by
  have hmin : frameMinSize = 4096 := rfl
  have hfits := header.fits
  have hlength : (UInt32.ofNat header.size + 1).toNat = header.size + 1 := by
    rw [UInt32.toNat_add, toNat_ofNat_length (by unfold ContentHeader.size; omega)]
    show (header.size + 1) % 2 ^ 32 = _
    exact Nat.mod_eq_of_lt (by unfold ContentHeader.size; omega)
  let first := afterDeliver d.derived cmd
  let second : AmqpDecoderData δ κ :=
    fill (amqpFrameHeader frameHeader cmd.channel header.size) first
  have hheader : fsm.action .contentHeaderFrameHeaderReady
      (amqpFrameHeader frameHeader cmd.channel header.size) first =
        (some (header.size + 1, .contentHeaderPayloadReady), second) := by
    obtain ⟨htype, hchannel', hfield⟩ := amqpFrameHeader_fields frameHeader
      cmd.channel header.size (first.framebuf.drop 7)
    show action _ _ _ = _
    rw [action_of_ok (show first.failed = false from h.failed)]
    simp only [act, contentHeaderFrameHeaderReady, fill, overwrite,
      length_amqpFrameHeader, htype, hchannel', hfield, hlength]
    exact if_pos ⟨trivial, rfl, by unfold ContentHeader.size; omega⟩
  have hfeed : Decoder.feed fsm d
      (methodFrame cmd ++ header.frame cmd.channel) =
        Decoder.feed fsm (Decoder.nextStep (header.size + 1)
          .contentHeaderPayloadReady second) header.payload := by
    rw [Decoder.feed_append, feed_deliver h hflow hdeliver hchannel
      (List.length_pos_iff.mp (by omega)) hfit, if_pos rfl,
      ContentHeader.frame, Decoder.feed_append,
      Decoder.feed_of_some rfl rfl (show (7 : Nat) ≠ 0 by decide) hheader,
      Decoder.settle_of_pos (Nat.succ_ne_zero _), if_pos rfl]
  have hlast : fsm.action .contentHeaderPayloadReady header.payload second =
      contentHeaderPayloadReady (fill header.payload second) := by
    show action _ _ _ = _
    rw [action_of_ok (show second.failed = false from h.failed)]
    rfl
  have hlen : header.payload.length = header.size + 1 := header.length_payload
  rw [contentHeaderPayloadReady_iff hlong header] at hlast
  by_cases hpasses : Passes cmd header
  · rw [if_pos hpasses] at hlast
    have hsettle := hfeed.trans
      (Decoder.feed_of_some rfl hlen (Nat.succ_ne_zero _) hlast)
    rw [Decoder.settle_of_pos (show (7 : Nat) ≠ 0 by decide)] at hsettle
    exact .inl ⟨hpasses, _, hsettle,
      ⟨h.failed, rfl, rfl, rfl, rfl, rfl, ⟨rfl, rfl⟩⟩⟩
  · rw [if_neg hpasses] at hlast
    have hstuck := hfeed.trans
      (Decoder.feed_of_none rfl hlen (Nat.succ_ne_zero _) hlast)
    exact .inr ⟨hpasses, _, hstuck, rfl⟩

/-- The frame of a `basic.deliver` command, and the content header of the
encoder. -/
theorem feed_headers {d : AmqpDecoder δ κ} (h : Waiting d)
    (hflow : d.derived.flowOn = true) (hdeliver : IsDeliver cmd)
    (hchannel : cmd.channel = d.derived.messageChannel)
    (hlong : 12 ≤ cmd.args.length) (hfit : cmd.args.length + 5 ≤ frameMinSize)
    {size : Nat} (hsize : size < 2 ^ 64) :
    ∃ derived', Decoder.feed fsm d
        (methodFrame cmd ++ contentHeaderFrame cmd.channel size) =
          (true, Decoder.nextStep 7 .contentBodyFrameHeaderReady derived') ∧
      Receiving d.derived cmd.channel size [] derived' := by
  have hpasses : Passes cmd (.plain (UInt64.ofNat size)) :=
    ⟨rfl, rfl, if_neg (show ¬cmd.args.length + 4 ≤ 14 by omega)⟩
  have hnat : (UInt64.ofNat size).toNat = size := by
    rw [UInt64.toNat_ofNat']
    exact Nat.mod_eq_of_lt hsize
  rcases feed_contentHeader h hflow hdeliver hchannel hlong hfit
    (.plain (UInt64.ofNat size)) with ⟨-, derived', hfeed, hreceiving⟩ | ⟨hnot, -⟩
  · rw [ContentHeader.frame_plain] at hfeed
    rw [show (ContentHeader.plain (UInt64.ofNat size)).bodySize.toNat = size
      from hnat] at hreceiving
    exact ⟨derived', hfeed, hreceiving⟩
  · exact absurd hpasses hnot

/-! ## The message is offered -/

/-- The message has been pushed, and the decoder waits for a method frame. -/
structure Pushed (base : AmqpDecoderData δ κ) (message : Message)
    (d : AmqpDecoder δ κ) : Prop where
  waiting : Waiting d
  pushed : d.derived.pushed = base.pushed ++ [message]
  commands : d.derived.commands = base.commands
  flow : d.derived.flowOn = base.flowOn ∧
    d.derived.messageChannel = base.messageChannel

/-- The message is complete, and is to be offered to the demux. -/
structure Complete (base : AmqpDecoderData δ κ) (channel : UInt16)
    (message : Message) (d : AmqpDecoder δ κ) : Prop where
  buf : d.buf = [frameEnd]
  toRead : d.toRead = 0
  next : d.next = .contentBodyFrameEndReady
  receiving : Receiving base channel message.length message d.derived

/-- The demux has refused the message.  It is offered again by the next call of
`write`. -/
structure Refused (base : AmqpDecoderData δ κ) (channel : UInt16)
    (message : Message) (d : AmqpDecoder δ κ) : Prop where
  complete : Complete base channel message d
  refused : ∃ demux, IDemux.write demux message = (false, d.derived.demux)

variable {message : Message} {d : AmqpDecoder δ κ}

theorem settle_complete (h : Complete base channel message d) :
    Pushed base message (Decoder.settle fsm d).2 ∨
      Refused base channel message (Decoder.settle fsm d).2 := by
  obtain ⟨hbuf, hzero, hnext, hr⟩ := h
  have hall : (fill [frameEnd] d.derived).message.length =
      (fill [frameEnd] d.derived).messageSize := by
    show d.derived.message.length = d.derived.messageSize
    rw [hr.message, hr.messageSize]
  have hact : fsm.action d.next d.buf d.derived =
      contentBodyFrameEndReady (fill [frameEnd] d.derived) := by
    show action _ _ _ = _
    rw [action_of_ok hr.failed, hnext, hbuf]
    rfl
  have hend : (fill [frameEnd] d.derived).framebuf.headD 0 = frameEnd := rfl
  rw [contentBodyFrameEndReady, if_pos hend, if_pos hall] at hact
  rcases hwrite : IDemux.write d.derived.demux message with ⟨_ | _, demux⟩
  · simp only [fill, hr.message, hwrite] at hact
    rw [Decoder.settle_of_none hzero hact]
    exact .inr ⟨⟨hbuf, hzero, hnext, { hr with message := rfl }⟩,
      d.derived.demux, hwrite⟩
  · simp only [fill, hr.message, hwrite] at hact
    rw [Decoder.settle_of_some hzero hact,
      Decoder.settle_of_pos (show (7 : Nat) ≠ 0 by decide)]
    exact .inl ⟨⟨rfl, rfl, rfl, hr.failed⟩, by rw [← hr.pushed]; rfl,
      hr.commands, hr.flow⟩

/-- The message is offered until it has been pushed, and then it is not offered
any more. -/
theorem writes_complete (pieces : List (List UInt8)) (hnil : pieces.flatten = [])
    (h : Pushed base message d ∨ Refused base channel message d) :
    ∃ d', d.writes pieces = some d' ∧
      (Pushed base message d' ∨ Refused base channel message d') := by
  induction pieces generalizing d with
  | nil => exact ⟨d, rfl, h⟩
  | cons piece pieces ih =>
      obtain ⟨rfl, hnil⟩ := List.append_eq_nil_iff.mp hnil
      have hnext : Pushed base message (Decoder.settle fsm d).2 ∨
          Refused base channel message (Decoder.settle fsm d).2 := by
        rcases h with h | h
        · rw [Decoder.settle_of_pos (by rw [h.waiting.toRead]; decide)]
          exact .inl h
        · exact settle_complete h.complete
      obtain ⟨d', hwrites, hd'⟩ := ih hnil hnext
      refine ⟨d', ?_, hd'⟩
      simp only [writes, Decoder.writes, Decoder.write_nil, List.length_nil,
        if_true]
      exact hwrites

/-- A message in pieces, when all of it but the last octet has been described
as a whole. -/
theorem writes_message {bytes : List UInt8}
    {derived : AmqpDecoderData δ κ} (hread : d.toRead ≠ 0)
    (hfeed : Decoder.feed fsm d bytes =
      (true, Decoder.nextStep 1 .contentBodyFrameEndReady derived))
    (h : Receiving base channel message.length message derived)
    (pieces : List (List UInt8)) (hcut : pieces.flatten = bytes ++ [frameEnd]) :
    ∃ d', d.writes pieces = some d' ∧
      (Pushed base message d' ∨ Refused base channel message d') := by
  induction pieces generalizing d bytes with
  | nil => exact (List.append_ne_nil_of_right_ne_nil _ (by simp) hcut.symm).elim
  | cons piece pieces ih =>
      rw [List.flatten_cons] at hcut
      by_cases hnil : pieces.flatten = []
      · -- this piece has the last octet
        rw [hnil, List.append_nil] at hcut
        subst hcut
        have hcomplete : Complete base channel message
            ((Decoder.nextStep 1 .contentBodyFrameEndReady derived).copy
              [frameEnd]) := ⟨rfl, rfl, rfl, h⟩
        have hone : [frameEnd].length ≤ (Decoder.nextStep 1
            AmqpDecoderState.contentBodyFrameEndReady derived).toRead :=
          Nat.le_refl 1
        have hwrite := Decoder.write_concat hread (congrArg Prod.fst hfeed)
          frameEnd
        rw [Decoder.feed_append, hfeed, if_pos rfl,
          Decoder.feed_of_le fsm (by simp) hone] at hwrite
        obtain ⟨d', hwrites, hd'⟩ :=
          writes_complete pieces hnil (settle_complete hcomplete)
        refine ⟨d', ?_, hd'⟩
        rw [writes, Decoder.writes, hwrite,
          if_pos (by rw [List.length_append, List.length_singleton])]
        exact hwrites
      · obtain ⟨more, hbytes, hmore⟩ : ∃ more, bytes = piece ++ more ∧
            pieces.flatten = more ++ [frameEnd] := by
          rcases List.append_eq_append_iff.mp hcut with
            ⟨more, hbytes, hmore⟩ | ⟨more, hpiece, hmore⟩
          · exact ⟨more, hbytes, hmore⟩
          · cases more with
            | nil => exact ⟨[], by simpa using hpiece.symm, by simpa using hmore.symm⟩
            | cons b more =>
                rw [List.cons_append, List.cons.injEq] at hmore
                exact (hnil (List.append_eq_nil_iff.mp hmore.2.symm).2).elim
        rw [hbytes, Decoder.feed_append] at hfeed
        split at hfeed
        · next htrue =>
            obtain ⟨hd, hn, _⟩ := Decoder.write_eq_feed fsm d piece hread
            obtain ⟨d', hwrites, hd'⟩ :=
              ih (Decoder.feed_toRead hread htrue) hfeed hmore
            refine ⟨d', ?_, hd'⟩
            rw [writes, Decoder.writes, if_pos (hn htrue), hd]
            exact hwrites
        · next hfalse =>
            rw [hfeed] at hfalse
            exact (hfalse rfl).elim

end AmqpDecoder

/-! ## The round trip -/

/-- A message passes through the codecs.

The encoder is about to send the message: its output is `basic.publish`, a
content header frame and body frames, whatever the sizes of the buffers.  The
body frames are as many as it takes, at least one; each has the length of its
payload in its header, and the payloads put together are the message.

A decoder that is waiting for a method frame, with the flow on, gets a
`basic.deliver` frame and then the content header and the body frames, in pieces
of any sizes.  It consumes them all.  The message is then pushed, once, and the
decoder waits for a method frame; unless the demux has refused the message,
which is then offered again by the next call of `write`. -/
theorem content_round_trip {δ κ : Type} [IDemux δ] [AmqpUnmarshaller κ]
    (message : Message) (hsize : message.length < 2 ^ 64)
    (e : AmqpEncoder (List Message)) (messages : List Message)
    (hready : AmqpEncoder.Ready e.next e.derived)
    (hboundary : e.data = [] ∧ e.next = .messageReady)
    (hflow : e.derived.flowOn = true) (hcommands : e.derived.commandQueue = [])
    (hmux : e.derived.mux = message :: messages) :
    ∃ fragments : List (List UInt8),
      (∀ sizes, ∃ more, (e.reads sizes).2 =
        (publishFrame e.derived.messageChannel e.derived.queue ++
          contentHeaderFrame e.derived.messageChannel message.length ++
          fragments.flatMap (bodyFrame e.derived.messageChannel) ++
          more).take sizes.sum) ∧
      (∀ fragment ∈ fragments, fragment.length ≤ frameMinSize - 8 ∧
        (getUint32 ((bodyFrame e.derived.messageChannel fragment).drop
          3)).toNat = fragment.length) ∧
      fragments.flatten = message ∧
      fragments.length = max 1
        ((message.length + (frameMinSize - 8 - 1)) / (frameMinSize - 8)) ∧
      ∀ (d : AmqpDecoder δ κ) (consumerTag exchange routingKey : List UInt8)
        (deliveryTag : UInt64) (redelivered : Bool)
        (pieces : List (List UInt8)),
        d.Waiting → d.derived.flowOn = true →
        d.derived.messageChannel = e.derived.messageChannel →
        consumerTag.length ≤ 255 → exchange.length ≤ 255 →
        routingKey.length ≤ 255 →
        pieces.flatten =
          methodFrame (deliver e.derived.messageChannel consumerTag deliveryTag
            redelivered exchange routingKey) ++
          contentHeaderFrame e.derived.messageChannel message.length ++
          fragments.flatMap (bodyFrame e.derived.messageChannel) →
        ∃ d', d.writes pieces = some d' ∧
          (AmqpDecoder.Pushed d.derived message d' ∨
            AmqpDecoder.Refused d.derived e.derived.messageChannel message
              d') := by
  refine ⟨fragments message, fun sizes => ?_, fun fragment hmem => ?_,
    flatten_fragments message, length_fragments message, ?_⟩
  · refine ⟨messages.flatMap fun message =>
      publishFrame e.derived.messageChannel e.derived.queue ++
        contentFrames e.derived.messageChannel message, ?_⟩
    rw [AmqpEncoder.reads_eq e sizes hready, hboundary.1, hboundary.2]
    simp [AmqpEncoder.rest, AmqpEncoder.queued, hcommands, hflow, hmux,
      contentFrames, bodyFrames]
  · have hle := length_le_of_mem_fragments message fragment hmem
    have hroom : fragmentSize = 4088 := rfl
    refine ⟨hle, ?_⟩
    have hfield := (amqpFrameHeader_fields frameBody e.derived.messageChannel
      fragment.length (fragment ++ [frameEnd])).2.2
    rw [bodyFrame, List.append_assoc, hfield]
    exact AmqpDecoder.toNat_ofNat_length (by omega)
  · intro d consumerTag exchange routingKey deliveryTag redelivered pieces hd
      hon hchannel htag hexchange hkey hcut
    have hlen := length_deliver_args e.derived.messageChannel consumerTag
      deliveryTag redelivered exchange routingKey
    have hmin : frameMinSize = 4096 := rfl
    generalize hcmd : deliver e.derived.messageChannel consumerTag deliveryTag
      redelivered exchange routingKey = cmd at hcut hlen
    have hdeliver : AmqpDecoder.IsDeliver cmd := hcmd ▸ ⟨rfl, rfl⟩
    have hcmdchannel : cmd.channel = e.derived.messageChannel := hcmd ▸ rfl
    obtain ⟨first, hfeed, hfirst⟩ := AmqpDecoder.feed_headers hd hon hdeliver
      (hcmdchannel.trans hchannel.symm) (by omega) (by omega) hsize
    obtain ⟨bytes, derived, hbytes, hfeed', hderived⟩ :=
      AmqpDecoder.feed_bodyFrames message hfirst (Nat.zero_add _)
    rw [hcmdchannel] at hfeed hbytes hderived
    have hall : Decoder.feed AmqpDecoder.fsm d
        (methodFrame cmd ++ contentHeaderFrame e.derived.messageChannel
          message.length ++ bytes) =
        (true, Decoder.nextStep 1 .contentBodyFrameEndReady derived) := by
      rw [Decoder.feed_append, hfeed, if_pos rfl, hfeed']
    refine AmqpDecoder.writes_message (by rw [hd.toRead]; decide) hall hderived
      pieces ?_
    rw [hcut, List.append_assoc _ bytes, ← hbytes, bodyFrames]

/-- Three bytes on channel 5, cut in the content header and in the body. -/
theorem content_round_trip_three_bytes :
    ∃ d', ((AmqpDecoder.create () ()).flow true 5).writes
        [methodFrame (deliver 5 [116] 1 false [] [107]) ++ [2, 0, 5, 0],
          (contentHeaderFrame 5 3).drop 4 ++ (bodyFrame 5 [1, 2, 3]).take 8,
          (bodyFrame 5 [1, 2, 3]).drop 8] = some d' ∧
      d'.derived.pushed = [[1, 2, 3]] := by
  obtain ⟨fragments, _, _, hflatten, hcount, hdecoder⟩ :=
    @content_round_trip Unit Unit _ _ [1, 2, 3] (by decide)
      { data := [], next := .messageReady, beginning := true,
        derived :=
          { (AmqpEncoder.create [[1, 2, 3]] []).derived with
            flowOn := true, messageChannel := 5 } }
      [] ⟨rfl, fun _ => by decide, by simp⟩ ⟨rfl, rfl⟩ rfl rfl rfl
  obtain ⟨fragment, rfl⟩ := List.length_eq_one_iff.mp hcount
  rw [List.flatten_singleton] at hflatten
  subst hflatten
  obtain ⟨d', hwrites, hpushed | hrefused⟩ := hdecoder
    ((AmqpDecoder.create () ()).flow true 5) [116] [] [107] 1 false
    [methodFrame (deliver 5 [116] 1 false [] [107]) ++ [2, 0, 5, 0],
      (contentHeaderFrame 5 3).drop 4 ++ (bodyFrame 5 [1, 2, 3]).take 8,
      (bodyFrame 5 [1, 2, 3]).drop 8]
    ⟨rfl, rfl, rfl, rfl⟩ rfl rfl (by decide) (by decide) (by decide)
    (by decide +kernel)
  · exact ⟨d', hwrites, hpushed.pushed⟩
  · obtain ⟨demux, hwrite⟩ := hrefused.refused
    cases hwrite

end ZeroMQ
