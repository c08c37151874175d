import ZeroMQ.Amqp.Content

/-!
# Which deliveries the AMQP decoder accepts

A delivery is a `basic.deliver` frame, a content header frame with any
properties, and body frames whose payloads are the message; an empty message
has none.  The decoder (`libzmq/amqp_decoder.cpp`) should push the message, and
an assertion should fail only if the class or the weight in the content header
or the octet behind its payload is wrong.

The local variable `bytes_read` of `content_header_frame_header_ready` hides the
member, and the octet is looked for where the `basic.deliver` frame ended.  In a
longer content header that is one of the properties; behind a shorter one it is
the end of the `basic.deliver` frame, which has been checked already.  Besides,
an empty message is pushed with the first body frame, which does not come, and
an empty body frame behind the last byte of a message is taken for a method
frame.

## Main definitions

* `ContentHeader.Wrong` — the content headers to reject.
* `AmqpDecoder.Accepts` — the decoder consumes a delivery and pushes the message.

## Main results

* `AmqpDecoder.feed_fragments` — body frames of any sizes.
* `deliveries_accepted_iff` — when the decoder rejects what it should, and when
  it accepts what it should.
-/

namespace ZeroMQ

open Amqp

/-- The content headers to reject. -/
def ContentHeader.Wrong (h : ContentHeader) : Prop :=
  h.endOctet ≠ frameEnd ∨ h.classId ≠ basicId ∨ h.weight ≠ 0
  deriving Decidable

namespace AmqpDecoder

variable {δ κ : Type} [IDemux δ] [AmqpUnmarshaller κ]
  {base derived : AmqpDecoderData δ κ} {channel : UInt16} {size : Nat}
  {received : List UInt8} {message : Message} {d d' : AmqpDecoder δ κ}

/-! ## Body frames -/

/-- Body frames for the rest of a message.  The decoder has the message before
the last octet of the first frame that completes it; only empty ones can come
behind that. -/
theorem feed_fragments (fragments : List (List UInt8))
    (h : Receiving base channel size received derived)
    (hlt : received.length < size)
    (hsum : received.length + fragments.flatten.length = size)
    (hlength : ∀ fragment ∈ fragments, fragment.length < 2 ^ 32) :
    ∃ bytes trailing derived',
      fragments.flatMap (bodyFrame channel) =
        bytes ++ [frameEnd] ++ trailing.flatMap (bodyFrame channel) ∧
      Decoder.feed fsm
        (Decoder.nextStep 7 .contentBodyFrameHeaderReady derived) bytes =
          (true, Decoder.nextStep 1 .contentBodyFrameEndReady derived') ∧
      Receiving base channel size (received ++ fragments.flatten) derived' ∧
      (trailing = [] ↔ fragments.getLast? ≠ some []) := by
  induction fragments generalizing received derived with
  | nil =>
      rw [List.flatten_nil, List.length_nil] at hsum
      omega
  | cons fragment fragments ih =>
      obtain ⟨hfragment, hlength⟩ := List.forall_mem_cons.mp hlength
      rw [List.flatten_cons, List.length_append] at hsum
      by_cases hlast : received.length + fragment.length = size
      · -- this frame has the last byte
        have hnil : fragments.flatten = [] :=
          List.eq_nil_of_length_eq_zero (by omega)
        obtain ⟨derived', hfeed, h'⟩ :=
          feed_bodyPayload h hfragment (Nat.le_of_eq hlast)
        refine ⟨_, fragments, derived', ?_, hfeed, ?_, ?_⟩
        · rw [List.flatMap_cons, bodyFrame]
        · rw [List.flatten_cons, hnil, List.append_nil]
          exact h'
        · have hne : fragment ≠ [] := by
            rintro rfl
            rw [List.length_nil] at hlast
            omega
          cases fragments with
          | nil => simpa using hne
          | cons next fragments =>
              have hall := List.flatten_eq_nil_iff.mp hnil
              have hmem := List.getLast?_eq_some_getLast (List.cons_ne_nil next fragments)
              rw [List.getLast?_cons_cons, hmem,
                hall _ (List.getLast_mem _)]
              simp
      · obtain ⟨middle, hfeed, hmiddle⟩ := feed_bodyFrame h hfragment (by omega)
        obtain ⟨bytes, trailing, derived', hbytes, hfeed', h', htrailing⟩ :=
          ih hmiddle (by rw [List.length_append]; omega)
            (by rw [List.length_append]; omega) hlength
        refine ⟨bodyFrame channel fragment ++ bytes, trailing, derived', ?_, ?_,
          ?_, ?_⟩
        · rw [List.flatMap_cons, hbytes]
          simp only [List.append_assoc]
        · rw [Decoder.feed_append, hfeed, if_pos rfl, hfeed']
        · rw [List.flatten_cons, ← List.append_assoc]
          exact h'
        · rw [htrailing]
          cases fragments with
          | nil =>
              rw [List.flatten_nil, List.length_nil] at hsum
              omega
          | cons next fragments => rw [List.getLast?_cons_cons]

theorem feed_unexpected (h : Waiting d) (channel : UInt16)
    (fragment more : List UInt8) :
    ∃ stuck, Decoder.feed fsm d (bodyFrame channel fragment ++ more) =
        (false, stuck) ∧ stuck.derived.failed = true := by
  have hact : fsm.action d.next
      (amqpFrameHeader frameBody channel fragment.length) d.derived =
        (none, { fill (amqpFrameHeader frameBody channel fragment.length)
          d.derived with failed := true }) := by
    show action _ _ _ = _
    rw [action_of_ok h.failed, h.next]
    have htype : ¬(fill (amqpFrameHeader frameBody channel fragment.length)
        d.derived).framebuf.headD 0 = frameMethod := by
      show ¬frameBody = frameMethod
      decide
    rw [act, methodFrameHeaderReady, if_neg htype]
    rfl
  have hlen : (amqpFrameHeader frameBody channel fragment.length).length =
      d.toRead := h.toRead.symm
  have hstuck := Decoder.feed_of_none h.buf hlen (by rw [h.toRead]; decide) hact
  rw [bodyFrame, List.append_assoc, List.append_assoc, Decoder.feed_append,
    hstuck, if_neg Bool.false_ne_true]
  exact ⟨_, rfl, rfl⟩

/-- A body frame behind a complete message makes an assertion fail, when the
message has been taken. -/
theorem writes_unexpected
    (h : Pushed base message d ∨ Refused base channel message d)
    (channel' : UInt16) (fragment more : List UInt8)
    (hwrites : d.writes [bodyFrame channel' fragment ++ more] = some d') :
    d'.derived.failed = true := by
  have hpushed : ∀ d : AmqpDecoder δ κ, Pushed base message d →
      d.writes [bodyFrame channel' fragment ++ more] = some d' →
        d'.derived.failed = true := by
    intro d hd hwrites
    obtain ⟨stuck, hfeed, hfailed⟩ :=
      feed_unexpected hd.waiting channel' fragment more
    refine failed_of_writes (by rw [hd.waiting.toRead]; decide) _ ?_ hfailed
      hwrites
    rw [List.flatten_singleton]
    exact hfeed
  rcases h with h | h
  · exact hpushed d h hwrites
  · -- the message is offered again first
    have hnext := settle_complete h.complete
    rcases hsettle : Decoder.settle fsm d with ⟨_ | _, d''⟩
    · have hstuck := Decoder.write_of_stuck h.complete.toRead hsettle
        (bodyFrame channel' fragment ++ more)
      simp only [writes, Decoder.writes, hstuck] at hwrites
      rw [if_neg (by simp [bodyFrame])] at hwrites
      cases hwrites
    · have hread := Decoder.settle_toRead fsm d (by rw [hsettle])
      rw [hsettle] at hread hnext
      have hsame := Decoder.write_of_settle h.complete.toRead hsettle
        (show bodyFrame channel' fragment ++ more ≠ [] by simp [bodyFrame])
      simp only [writes, Decoder.writes, hsame] at hwrites
      rcases hnext with hnext | hnext
      · exact hpushed d'' hnext hwrites
      · exact absurd hnext.complete.toRead hread

/-! ## Deliveries -/

/-- The decoder consumes the bytes, however they are cut, and pushes the
message, or will do so as soon as the demux takes it. -/
def Accepts (d : AmqpDecoder δ κ) (channel : UInt16) (message : Message)
    (bytes : List UInt8) : Prop :=
  ∀ pieces : List (List UInt8), pieces.flatten = bytes →
    ∃ d', d.writes pieces = some d' ∧
      (Pushed d.derived message d' ∨ Refused d.derived channel message d')

omit [AmqpUnmarshaller κ] in
theorem not_failed_of_accepted
    (h : Pushed base message d ∨ Refused base channel message d) :
    d.derived.failed = false := by
  rcases h with h | h
  · exact h.waiting.failed
  · exact h.complete.receiving.failed

section

variable {cmd : AmqpCommand} (hwait : Waiting d)
  (hflow : d.derived.flowOn = true) (hdeliver : IsDeliver cmd)
  (hchannel : cmd.channel = d.derived.messageChannel)
  (hlong : 12 ≤ cmd.args.length) (hfit : cmd.args.length + 5 ≤ frameMinSize)
  (header : ContentHeader)

include hwait hflow hdeliver hchannel hlong hfit

theorem rejects_iff :
    (d.write (methodFrame cmd ++ header.frame cmd.channel)).1.derived.failed =
        true ↔ ¬Passes cmd header := by
  have hread : d.toRead ≠ 0 := by rw [hwait.toRead]; decide
  have hwrite := (Decoder.write_eq_feed fsm d
    (methodFrame cmd ++ header.frame cmd.channel) hread).1
  rw [write, hwrite]
  rcases feed_contentHeader hwait hflow hdeliver hchannel hlong hfit header with
    ⟨hpasses, derived', hfeed, hreceiving⟩ | ⟨hnot, stuck, hfeed, hfailed⟩
  · rw [hfeed]
    refine ⟨fun hfailed => ?_, fun hnot => absurd hpasses hnot⟩
    exact absurd (hfailed.symm.trans hreceiving.failed) (by decide)
  · rw [hfeed]
    exact ⟨fun _ => hnot, fun _ => hfailed⟩

variable {fragments : List (List UInt8)}
  (hsum : fragments.flatten.length = header.bodySize.toNat)
  (hlength : ∀ fragment ∈ fragments, fragment.length < 2 ^ 32)

include hsum hlength

/-- A delivery whose content header passes: the decoder has the message before
the last octet of the frame that completes it. -/
theorem feed_delivery (hpasses : Passes cmd header)
    (hbody : header.bodySize ≠ 0) :
    ∃ bytes trailing derived',
      methodFrame cmd ++ header.frame cmd.channel ++
          fragments.flatMap (bodyFrame cmd.channel) =
        bytes ++ [frameEnd] ++ trailing.flatMap (bodyFrame cmd.channel) ∧
      Decoder.feed fsm d bytes =
        (true, Decoder.nextStep 1 .contentBodyFrameEndReady derived') ∧
      Receiving d.derived cmd.channel fragments.flatten.length
        fragments.flatten derived' ∧
      (trailing = [] ↔ fragments.getLast? ≠ some []) := by
  have hpos : 0 < header.bodySize.toNat :=
    Nat.pos_of_ne_zero fun h0 => hbody (UInt64.toNat_inj.mp h0)
  rcases feed_contentHeader hwait hflow hdeliver hchannel hlong hfit header with
    ⟨-, derived, hfeed, hreceiving⟩ | ⟨hnot, -⟩
  · obtain ⟨bytes, trailing, derived', hbytes, hfeed', h', htrailing⟩ :=
      feed_fragments fragments hreceiving hpos
        ((Nat.zero_add _).trans hsum) hlength
    rw [List.nil_append, ← hsum] at h'
    refine ⟨methodFrame cmd ++ header.frame cmd.channel ++ bytes, trailing,
      derived', ?_, ?_, h', htrailing⟩
    · rw [hbytes]
      simp only [List.append_assoc]
    · rw [Decoder.feed_append, hfeed, if_pos rfl, hfeed']
  · exact absurd hpasses hnot

/-- A delivery whose content header passes and whose last body frame completes
the message is accepted. -/
theorem accepts_of_passes (hpasses : Passes cmd header)
    (hbody : header.bodySize ≠ 0) (hlast : fragments.getLast? ≠ some []) :
    d.Accepts cmd.channel fragments.flatten
      (methodFrame cmd ++ header.frame cmd.channel ++
        fragments.flatMap (bodyFrame cmd.channel)) := by
  obtain ⟨bytes, trailing, derived', hbytes, hfeed, h', htrailing⟩ :=
    feed_delivery hwait hflow hdeliver hchannel hlong hfit header hsum hlength
      hpasses hbody
  rw [htrailing.mpr hlast, List.flatMap_nil, List.append_nil] at hbytes
  intro pieces hcut
  exact writes_message (by rw [hwait.toRead]; decide) hfeed h' pieces
    (hcut.trans hbytes)

/-- A delivery that is accepted has a content header that passes, a message that
is not empty and a last body frame that completes it. -/
theorem passes_of_accepts (hnone : header.bodySize = 0 → fragments = [])
    (h : d.Accepts cmd.channel fragments.flatten
      (methodFrame cmd ++ header.frame cmd.channel ++
        fragments.flatMap (bodyFrame cmd.channel))) :
    Passes cmd header ∧ header.bodySize ≠ 0 ∧
      fragments.getLast? ≠ some [] := by
  have hread : d.toRead ≠ 0 := by rw [hwait.toRead]; decide
  rcases feed_contentHeader hwait hflow hdeliver hchannel hlong hfit header with
    ⟨hpasses, derived, hheader, -⟩ | ⟨-, stuck, hheader, hfailed⟩
  · have hbody : header.bodySize ≠ 0 := by
      intro hzero
      rw [hnone hzero, List.flatMap_nil, List.append_nil] at h
      obtain ⟨d', hwrites, hd'⟩ := h [_] List.flatten_singleton
      have hsome : d.writes _ = some _ := Decoder.writes_of_feed hread [_]
        (by rw [List.flatten_singleton]; exact hheader)
      rw [hsome] at hwrites
      cases hwrites
      -- a decoder that wants a body frame has not got the message
      rcases hd' with hd' | hd'
      · cases hd'.waiting.next
      · cases hd'.complete.next
    refine ⟨hpasses, hbody, ?_⟩
    obtain ⟨bytes, trailing, derived', hbytes, hfeed, h', htrailing⟩ :=
      feed_delivery hwait hflow hdeliver hchannel hlong hfit header hsum hlength
        hpasses hbody
    cases trailing with
    | nil => exact htrailing.mp rfl
    | cons fragment trailing =>
        -- cut behind the message, which is offered before the rest is written
        obtain ⟨d', hwrites, hd'⟩ := h
          [bytes ++ [frameEnd], (fragment :: trailing).flatMap
            (bodyFrame cmd.channel)] (by rw [hbytes]; simp)
        obtain ⟨d₁, hfirst, hd₁⟩ := writes_message hread hfeed h'
          [bytes ++ [frameEnd]] List.flatten_singleton
        have hsecond : d₁.writes [(fragment :: trailing).flatMap
            (bodyFrame cmd.channel)] = some d' := by
          have happend := Decoder.writes_append fsm d [bytes ++ [frameEnd]]
            [(fragment :: trailing).flatMap (bodyFrame cmd.channel)]
          rw [show Decoder.writes fsm d [bytes ++ [frameEnd]] = some d₁
            from hfirst, Option.bind_some] at happend
          exact happend.symm.trans hwrites
        rw [List.flatMap_cons] at hsecond
        have hfailed := writes_unexpected hd₁ cmd.channel fragment _ hsecond
        exact absurd (hfailed.symm.trans (not_failed_of_accepted hd'))
          (by decide)
  · -- the assertion has failed before the body frames
    obtain ⟨d', hwrites, hd'⟩ := h [_] List.flatten_singleton
    have hall : d'.derived.failed = true := by
      refine failed_of_writes hread _ ?_ hfailed hwrites
      rw [List.flatten_singleton, Decoder.feed_append, hheader,
        if_neg Bool.false_ne_true]
    exact absurd (hall.symm.trans (not_failed_of_accepted hd')) (by decide)

end

end AmqpDecoder

/-- Which deliveries the decoder accepts, whatever came before.

The first part is about the content header, behind any `basic.deliver` frame: an
assertion fails exactly for the wrong ones, if and only if the class or the
weight is wrong or the octet that is checked tells the same as the one behind
the payload.

The second part is about a delivery with a content header that is not wrong and
body frames that make up the message, none for an empty one: it is accepted if
and only if the octet that is checked is the frame-end octet, the message is not
empty, and the last body frame is not empty. -/
theorem deliveries_accepted_iff {δ κ : Type} [IDemux δ] [AmqpUnmarshaller κ]
    (d : AmqpDecoder δ κ) (hwait : d.Waiting)
    (hflow : d.derived.flowOn = true) (channel : UInt16)
    (hchannel : d.derived.messageChannel = channel)
    (consumerTag exchange routingKey : List UInt8) (deliveryTag : UInt64)
    (redelivered : Bool) (htag : consumerTag.length ≤ 255)
    (hexchange : exchange.length ≤ 255) (hkey : routingKey.length ≤ 255)
    (header : ContentHeader) (cmd : AmqpCommand)
    (hcmd : cmd = deliver channel consumerTag deliveryTag redelivered exchange
      routingKey) :
    (((d.write (methodFrame cmd ++ header.frame channel)).1.derived.failed =
          true ↔ header.Wrong) ↔
        header.classId ≠ basicId ∨ header.weight ≠ 0 ∨
          (header.checked (cmd.args.length + 4) = frameEnd ↔
            header.endOctet = frameEnd)) ∧
      (¬header.Wrong → ∀ fragments : List (List UInt8),
        fragments.flatten.length = header.bodySize.toNat →
        (header.bodySize = 0 → fragments = []) →
        (∀ fragment ∈ fragments, fragment.length < 2 ^ 32) →
        (d.Accepts channel fragments.flatten
            (methodFrame cmd ++ header.frame channel ++
              fragments.flatMap (bodyFrame channel)) ↔
          header.checked (cmd.args.length + 4) = frameEnd ∧
            header.bodySize ≠ 0 ∧ fragments.getLast? ≠ some [])) := by
  have hlen := length_deliver_args channel consumerTag deliveryTag redelivered
    exchange routingKey
  have hmin : frameMinSize = 4096 := rfl
  have hdeliver : AmqpDecoder.IsDeliver cmd := hcmd ▸ ⟨rfl, rfl⟩
  obtain rfl : cmd.channel = channel := by rw [hcmd]; rfl
  rw [← hcmd] at hlen
  have hlong : 12 ≤ cmd.args.length := by omega
  have hfit : cmd.args.length + 5 ≤ frameMinSize := by omega
  constructor
  · rw [AmqpDecoder.rejects_iff hwait hflow hdeliver hchannel.symm hlong hfit
      header]
    unfold AmqpDecoder.Passes ContentHeader.Wrong
    by_cases hclass : header.classId = basicId
    · by_cases hweight : header.weight = 0
      · simp only [hclass, hweight, true_and, ne_eq, not_true_eq_false, or_false,
          false_or]
        exact not_iff_not
      · simp [hweight]
    · simp [hclass]
  · intro hright fragments hsum hnone hlength
    constructor
    · intro haccepts
      obtain ⟨⟨-, -, hchecked⟩, hrest⟩ := AmqpDecoder.passes_of_accepts hwait
        hflow hdeliver hchannel.symm hlong hfit header hsum hlength hnone haccepts
      exact ⟨hchecked, hrest⟩
    · rintro ⟨hchecked, hbody, hlast⟩
      simp only [ContentHeader.Wrong, not_or, ne_eq, not_not] at hright
      exact AmqpDecoder.accepts_of_passes hwait hflow hdeliver hchannel.symm hlong
        hfit header hsum hlength ⟨hright.2.1, hright.2.2, hchecked⟩ hbody hlast

/-- Three bytes on channel 5, in two body frames. -/
theorem deliveries_accepted_iff_two_frames :
    ((AmqpDecoder.create () () : AmqpDecoder Unit Unit).flow true 5).Accepts 5
      [1, 2, 3]
      (methodFrame (deliver 5 [116] 1 false [] [107]) ++
        (ContentHeader.plain 3).frame 5 ++
        [[1], [2, 3]].flatMap (bodyFrame 5)) :=
  ((deliveries_accepted_iff
      ((AmqpDecoder.create () () : AmqpDecoder Unit Unit).flow true 5)
      ⟨rfl, rfl, rfl, rfl⟩ rfl 5 rfl [116] [] [107] 1 false (by decide)
      (by decide) (by decide) (.plain 3) _ rfl).2 (by decide) [[1], [2, 3]]
    (by decide) (fun h => absurd h (by decide)) (by decide)).mpr
      ⟨by decide, by decide, by decide⟩

/-- A `basic.deliver` frame of 16 bytes and a content header of 18, with nothing
wrong about it.  Its octet 16, which belongs to the properties, is checked, and
the assertion fails. -/
theorem long_content_header_rejected :
    ∃ header : ContentHeader, ¬header.Wrong ∧
      header.properties = [0, 0, 0, 0, 0, 0] ∧
      (((AmqpDecoder.create () () : AmqpDecoder Unit Unit).flow true 5).write
        (methodFrame (deliver 5 [] 1 false [] []) ++
          header.frame 5)).1.derived.failed = true := by
  refine ⟨⟨basicId, 0, 3, [0, 0, 0, 0, 0, 0], frameEnd, by decide, by decide⟩,
    by decide, rfl, ?_⟩
  exact (AmqpDecoder.rejects_iff ⟨rfl, rfl, rfl, rfl⟩ rfl ⟨rfl, rfl⟩ rfl
    (by decide) (by decide) _).mpr (by decide)

end ZeroMQ
