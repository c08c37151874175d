import ZeroMQ.Amqp.Decoder
import ZeroMQ.Lib.Framing

/-!
# Frames in the input of the decoder

All frames of AMQP have one layout: type, channel, the size of the payload, the
payload and an end octet.  A byte stream is cut into frames by this layout
alone.  The decoder follows it, whatever the frames are: what it has consumed is
a number of frames and the beginning of one more, and the place in that one is
in the state of the decoder.  So the unmarshaller gets commands from complete
method frames of the stream and from nowhere else.

## Main definitions

* `amqpFraming` — the layout.
* `AmqpDecoder.Aligned` — a decoder and the bytes it has consumed.

## Main results

* `AmqpDecoder.Aligned.step` — an action keeps the decoder aligned, and calls
  the unmarshaller with a command that is a frame of the stream.
-/

namespace ZeroMQ

open Amqp Lib

/-- The size in a frame header. -/
def payloadSize (header : List UInt8) : Nat :=
  (getUint32 (header.drop 3)).toNat

theorem payloadSize_append {header : List UInt8} (h : 7 ≤ header.length)
    (more : List UInt8) : payloadSize (header ++ more) = payloadSize header := by
  rw [payloadSize, payloadSize, List.drop_append_of_le_length (by omega),
    getUint32_append_of_le (by rw [List.length_drop]; omega)]

/-- Type, channel and size are seven bytes; the payload is followed by one
more. -/
def amqpFraming : Framing UInt8 where
  header := 7
  size bytes := payloadSize bytes + 8
  header_pos := by decide
  header_le _ := by omega
  size_append _ more h := by rw [payloadSize_append h]

theorem isFrame_append {header rest : List UInt8} (hheader : header.length = 7)
    (hrest : rest.length = payloadSize header + 1) :
    amqpFraming.IsFrame (header ++ rest) := by
  show (header ++ rest).length = payloadSize (header ++ rest) + 8
  rw [payloadSize_append (by omega), List.length_append]
  omega

/-- A method frame with the class and the method of a command. -/
def Carries (frame : List UInt8) (cmd : AmqpCommand) : Prop :=
  frame.headD 0 = frameMethod ∧ getUint16 (frame.drop 7) = cmd.classId ∧
    getUint16 (frame.drop 9) = cmd.methodId

/-- Class and method are read from the buffer, the payload being in it. -/
theorem carries_append {header payload framebuf : List UInt8}
    (hheader : header.length = 7) (htype : header.headD 0 = frameMethod)
    (hlen : 4 ≤ payload.length) (channel : UInt16) (args : List UInt8) :
    Carries (header ++ payload)
      { channel := channel
        classId := getUint16 (overwrite framebuf payload)
        methodId := getUint16 ((overwrite framebuf payload).drop 2)
        args := args } := by
  refine ⟨?_, ?_, ?_⟩
  · cases header with
    | nil => cases hheader
    | cons b header => exact htype
  · show _ = getUint16 (overwrite framebuf payload)
    rw [List.drop_left' hheader, overwrite, getUint16_append_of_le (by omega)]
  · show _ = getUint16 ((overwrite framebuf payload).drop 2)
    rw [← List.drop_drop (i := 2) (j := 7), List.drop_left' hheader, overwrite,
      List.drop_append_of_le_length (by omega),
      getUint16_append_of_le (by rw [List.length_drop]; omega)]

namespace AmqpDecoder

variable {δ κ : Type} {buf : List UInt8} {next : AmqpDecoderState}
  {toRead : Nat} {consumed : List UInt8}

/-- The part of a frame that has been consumed, for a decoder that has `buf` and
wants `toRead` bytes more for its next action.  The last line of the content
header is about a size that overflows when the end octet is added to it. -/
def Unfinished (next : AmqpDecoderState) (buf : List UInt8) (toRead : Nat)
    (d : AmqpDecoderData δ κ) (part : List UInt8) : Prop :=
  match next with
  | .methodFrameHeaderReady => part = buf ∧ buf.length + toRead = 7
  | .contentHeaderFrameHeaderReady => part = buf ∧ buf.length + toRead = 7
  | .contentBodyFrameHeaderReady => part = buf ∧ buf.length + toRead = 7
  | .methodPayloadReady =>
      ∃ header, part = header ++ buf ∧ header.length = 7 ∧
        header.headD 0 = frameMethod ∧ d.bytesRead = payloadSize header ∧
        buf.length + toRead = payloadSize header + 1
  | .contentHeaderPayloadReady =>
      ∃ header, part = header ++ buf ∧ header.length = 7 ∧
        (buf.length + toRead = payloadSize header + 1 ∨
          buf = [] ∧ toRead = 0 ∧ d.framebuf.headD 0 = frameHeader)
  | .contentBodyPayloadReady =>
      ∃ header, part = header ++ buf ∧ header.length = 7 ∧
        buf.length + toRead = payloadSize header
  | .contentBodyFrameEndReady =>
      ∃ header body, part = header ++ (body ++ buf) ∧ header.length = 7 ∧
        body.length = payloadSize header ∧ buf.length + toRead = 1

/-- The bytes a decoder has consumed are frames and the beginning of one. -/
def Aligned (d : AmqpDecoder δ κ) (consumed : List UInt8) : Prop :=
  ∃ (frames : List (List UInt8)) (part : List UInt8),
    (∀ frame ∈ frames, amqpFraming.IsFrame frame) ∧
    consumed = frames.flatten ++ part ∧
    Unfinished d.next d.buf d.toRead d.derived part

theorem Aligned.nil {d : AmqpDecoder δ κ}
    (hnext : d.next = .methodFrameHeaderReady) (hbuf : d.buf = [])
    (hread : d.toRead = 7) : Aligned d [] := by
  refine ⟨[], [], by simp, rfl, ?_⟩
  rw [hnext, hbuf, hread]
  exact ⟨rfl, rfl⟩

theorem Unfinished.copy {buf bytes part : List UInt8} {d : AmqpDecoderData δ κ}
    (h : Unfinished next buf toRead d part) (hle : bytes.length ≤ toRead) :
    Unfinished next (buf ++ bytes) (toRead - bytes.length) d
      (part ++ bytes) := by
  have hlen : (buf ++ bytes).length + (toRead - bytes.length) =
      buf.length + toRead := by
    rw [List.length_append]
    omega
  cases next with
  | methodFrameHeaderReady | contentHeaderFrameHeaderReady
  | contentBodyFrameHeaderReady =>
      obtain ⟨rfl, hread⟩ := h
      exact ⟨rfl, hlen.trans hread⟩
  | methodPayloadReady =>
      obtain ⟨header, rfl, hheader, htype, hsize, hread⟩ := h
      exact ⟨header, List.append_assoc .., hheader, htype, hsize,
        hlen.trans hread⟩
  | contentHeaderPayloadReady =>
      obtain ⟨header, rfl, hheader, hread | ⟨rfl, rfl, htype⟩⟩ := h
      · exact ⟨header, List.append_assoc .., hheader, .inl (hlen.trans hread)⟩
      · have hnil : bytes = [] := List.length_eq_zero_iff.mp (by omega)
        exact ⟨header, List.append_assoc .., hheader,
          .inr ⟨hnil, Nat.zero_sub _, htype⟩⟩
  | contentBodyPayloadReady =>
      obtain ⟨header, rfl, hheader, hread⟩ := h
      exact ⟨header, List.append_assoc .., hheader, hlen.trans hread⟩
  | contentBodyFrameEndReady =>
      obtain ⟨header, body, rfl, hheader, hbody, hread⟩ := h
      exact ⟨header, body, by simp only [List.append_assoc], hheader, hbody,
        hlen.trans hread⟩

theorem Aligned.copy {d : AmqpDecoder δ κ} {bytes : List UInt8}
    (h : Aligned d consumed) (hle : bytes.length ≤ d.toRead) :
    Aligned (d.copy bytes) (consumed ++ bytes) := by
  obtain ⟨frames, part, hframes, rfl, hpart⟩ := h
  exact ⟨frames, part ++ bytes, hframes, List.append_assoc .., hpart.copy hle⟩

/-! ## The actions -/

theorem headD_overwrite {framebuf bytes : List UInt8} (h : bytes ≠ []) :
    (overwrite framebuf bytes).headD 0 = bytes.headD 0 := by
  cases bytes with
  | nil => exact (h rfl).elim
  | cons b bytes => rfl

/-- The size and the type are read from the bytes just received. -/
theorem fill_header {d : AmqpDecoderData δ κ} (h : buf.length = 7) :
    (getUint32 ((fill buf d).framebuf.drop 3)).toNat = payloadSize buf ∧
      (fill buf d).framebuf.headD 0 = buf.headD 0 := by
  refine ⟨payloadSize_append (by omega) _, headD_overwrite ?_⟩
  rintro rfl
  cases h

variable [IDemux δ] [AmqpUnmarshaller κ] {d d' : AmqpDecoderData δ κ}

/-- What is left of a frame and what the callback has become, after an action
that wants more bytes. -/
def Continues (part : List UInt8) (callback : κ) (toRead : Nat)
    (next : AmqpDecoderState) (d : AmqpDecoderData δ κ) : Prop :=
  (Unfinished next [] toRead d part ∧ d.callback = callback) ∨
    (amqpFraming.IsFrame part ∧ Unfinished next [] toRead d [] ∧
      (d.callback = callback ∨ ∃ cmd calls, Carries part cmd ∧
        AmqpUnmarshaller.write callback cmd = some (d.callback, calls)))

/-- The buffer still begins with the header of the frame when the size of its
payload has overflown; that is not the class. -/
theorem getUint16_ne_of_frameHeader {framebuf : List UInt8}
    (h : framebuf.headD 0 = frameHeader) : getUint16 framebuf ≠ basicId := by
  match framebuf with
  | [] => simp [frameHeader] at h
  | [b0] =>
      show (0 : UInt16) ≠ 60
      decide
  | b0 :: b1 :: _ =>
      have hb0 : b0 = 2 := h
      subst hb0
      intro heq
      have hbit := congrArg (fun v : UInt16 => v.toNat.testBit 9) heq
      have hlt := Nat.testBit_lt_two_pow (x := b1.toNat) (i := 9)
        (Nat.lt_of_lt_of_le b1.toNat_lt (by decide))
      simp only [getUint16, basicId, UInt16.toNat_or, Nat.testBit_or,
        UInt8.toNat_toUInt16, hlt] at hbit
      revert hbit
      decide

theorem Unfinished.act {next next' : AmqpDecoderState} {buf part : List UInt8}
    (h : Unfinished next buf 0 d part)
    (hact : act next buf d = (some (toRead, next'), d')) :
    Continues part d.callback toRead next' d' := by
  cases next with
  | methodFrameHeaderReady =>
      obtain ⟨rfl, hlen⟩ := h
      obtain ⟨hsize, htype⟩ := fill_header (d := d) hlen
      simp only [AmqpDecoder.act, methodFrameHeaderReady, fail, hsize] at hact
      split at hact
      · next hmethod =>
          split at hact
          · cases hact
            exact .inl ⟨⟨part, (List.append_nil part).symm, hlen,
              htype.symm.trans hmethod, rfl, Nat.zero_add _⟩, rfl⟩
          · cases hact
      · cases hact
  | methodPayloadReady =>
      obtain ⟨header, rfl, hheader, htype, hsize, hlen⟩ := h
      have hframe : amqpFraming.IsFrame (header ++ buf) :=
        isFrame_append hheader hlen
      simp only [AmqpDecoder.act, methodPayloadReady, fail] at hact
      split at hact
      · next hcheck =>
          split at hact
          · split at hact
            · cases hact
              exact .inr ⟨hframe, ⟨rfl, rfl⟩, .inl rfl⟩
            · cases hact
          · split at hact
            · cases hact
            · next callback calls hwrite =>
                cases hact
                have hread : 5 ≤ payloadSize header := hsize ▸ hcheck.1
                exact .inr ⟨hframe, ⟨rfl, rfl⟩, .inr ⟨_, calls,
                  carries_append hheader htype (by omega) _ _,
                  by rw [(foldl_called calls _).1]; exact hwrite⟩⟩
      · cases hact
  | contentHeaderFrameHeaderReady =>
      obtain ⟨rfl, hlen⟩ := h
      obtain ⟨hsize, htype⟩ := fill_header (d := d) hlen
      simp only [AmqpDecoder.act, contentHeaderFrameHeaderReady, fail] at hact
      split at hact
      · next hcheck =>
          cases hact
          refine .inl ⟨⟨part, (List.append_nil part).symm, hlen, ?_⟩, rfl⟩
          rw [UInt32.toNat_add, hsize]
          by_cases hlt : payloadSize part + 1 < 2 ^ 32
          · exact .inl (by
              rw [List.length_nil, Nat.zero_add]
              exact Nat.mod_eq_of_lt hlt)
          · have hle : payloadSize part < 2 ^ 32 := UInt32.toNat_lt _
            have hover : payloadSize part + 1 = 2 ^ 32 := by omega
            refine .inr ⟨rfl, ?_, hcheck.1⟩
            show (payloadSize part + 1) % 2 ^ 32 = 0
            rw [hover, Nat.mod_self]
      · cases hact
  | contentHeaderPayloadReady =>
      obtain ⟨header, rfl, hheader, hread⟩ := h
      simp only [AmqpDecoder.act, contentHeaderPayloadReady, fail] at hact
      split at hact
      · next hcheck =>
          cases hact
          rcases hread with hlen | ⟨rfl, _, htype⟩
          · exact .inr ⟨isFrame_append hheader hlen, ⟨rfl, rfl⟩, .inl rfl⟩
          · exact (getUint16_ne_of_frameHeader htype hcheck.2.1).elim
      · cases hact
  | contentBodyFrameHeaderReady =>
      obtain ⟨rfl, hlen⟩ := h
      obtain ⟨hsize, _⟩ := fill_header (d := d) hlen
      simp only [AmqpDecoder.act, contentBodyFrameHeaderReady, fail,
        hsize] at hact
      split at hact
      · cases hact
        exact .inl ⟨⟨part, (List.append_nil part).symm, hlen,
          Nat.zero_add _⟩, rfl⟩
      · cases hact
  | contentBodyPayloadReady =>
      obtain ⟨header, rfl, hheader, hlen⟩ := h
      cases hact
      exact .inl ⟨⟨header, buf, by rw [List.append_nil], hheader, hlen, rfl⟩,
        rfl⟩
  | contentBodyFrameEndReady =>
      obtain ⟨header, body, rfl, hheader, hbody, hlen⟩ := h
      have hframe : amqpFraming.IsFrame (header ++ (body ++ buf)) := by
        refine isFrame_append hheader ?_
        rw [List.length_append]
        omega
      simp only [AmqpDecoder.act, contentBodyFrameEndReady, fail] at hact
      split at hact
      · split at hact
        · split at hact
          · cases hact
          · cases hact
            exact .inr ⟨hframe, ⟨rfl, rfl⟩, .inl rfl⟩
        · cases hact
          exact .inr ⟨hframe, ⟨rfl, rfl⟩, .inl rfl⟩
      · cases hact

/-! ## The flow -/

/-- What a call of the callback does to `flow_on`. -/
def flowAfter (flowOn : Bool) : DecoderCall → Bool
  | .flow flowOn _ => flowOn
  | .gap => flowOn
  | .reset => false

omit [AmqpUnmarshaller κ] in
theorem flowOn_foldl_called (calls : List DecoderCall)
    (d : AmqpDecoderData δ κ) :
    (calls.foldl called d).flowOn = calls.foldl flowAfter d.flowOn := by
  induction calls generalizing d with
  | nil => rfl
  | cons call calls ih =>
      rw [List.foldl_cons, List.foldl_cons, ih]
      cases call <;> rfl

/-- An action leaves the callback and the flow alone, and if it returns false it
has failed an assertion or changed nothing but the demux; or it calls the
unmarshaller and the flow is what the callback makes of it. -/
theorem act_cases {st : AmqpDecoderState}
    {result : Option (Nat × AmqpDecoderState)}
    (h : act st buf d = (result, d')) :
    (d'.callback = d.callback ∧ d'.flowOn = d.flowOn ∧ (result = none →
        d'.failed = true ∨ st = .contentBodyFrameEndReady)) ∨
      result ≠ none ∧ ∃ cmd calls, AmqpUnmarshaller.write d.callback cmd =
          some (d'.callback, calls) ∧
        d'.flowOn = calls.foldl flowAfter d.flowOn := by
  cases st with
  | methodFrameHeaderReady =>
      simp only [act, methodFrameHeaderReady, fail] at h
      split at h
      · split at h <;> cases h <;> exact .inl ⟨rfl, rfl, by simp⟩
      · cases h
        exact .inl ⟨rfl, rfl, by simp⟩
  | methodPayloadReady =>
      simp only [act, methodPayloadReady, fail] at h
      split at h
      · split at h
        · split at h <;> cases h <;> exact .inl ⟨rfl, rfl, by simp⟩
        · split at h
          · cases h
            exact .inl ⟨rfl, rfl, by simp⟩
          · next callback calls hwrite =>
              cases h
              exact .inr ⟨by simp, _, calls,
                by rw [(foldl_called calls _).1]; exact hwrite,
                flowOn_foldl_called calls _⟩
      · cases h
        exact .inl ⟨rfl, rfl, by simp⟩
  | contentHeaderFrameHeaderReady =>
      simp only [act, contentHeaderFrameHeaderReady, fail] at h
      split at h <;> cases h <;> exact .inl ⟨rfl, rfl, by simp⟩
  | contentHeaderPayloadReady =>
      simp only [act, contentHeaderPayloadReady, fail] at h
      split at h <;> cases h <;> exact .inl ⟨rfl, rfl, by simp⟩
  | contentBodyFrameHeaderReady =>
      simp only [act, contentBodyFrameHeaderReady, fail] at h
      split at h <;> cases h <;> exact .inl ⟨rfl, rfl, by simp⟩
  | contentBodyPayloadReady =>
      cases h
      exact .inl ⟨rfl, rfl, by simp⟩
  | contentBodyFrameEndReady =>
      simp only [act, contentBodyFrameEndReady, fail] at h
      split at h
      · split at h
        · split at h <;> cases h <;> exact .inl ⟨rfl, rfl, fun _ => .inr rfl⟩
        · cases h
          exact .inl ⟨rfl, rfl, fun _ => .inr rfl⟩
      · cases h
        exact .inl ⟨rfl, rfl, fun _ => .inr rfl⟩

/-- An action that returns false has failed an assertion, or it has changed
nothing but the demux. -/
theorem act_eq_none (hact : act next buf d = (none, d')) :
    d'.callback = d.callback ∧
      (d'.failed = true ∨ next = .contentBodyFrameEndReady) := by
  rcases act_cases hact with ⟨hsame, _, hfailed⟩ | ⟨hne, _⟩
  · exact ⟨hsame, hfailed rfl⟩
  · exact (hne rfl).elim

theorem action_callback {st : AmqpDecoderState}
    {result : Option (Nat × AmqpDecoderState)}
    (h : action st buf d = (result, d')) :
    (d'.callback = d.callback ∧ d'.flowOn = d.flowOn) ∨
      ∃ cmd calls, AmqpUnmarshaller.write d.callback cmd =
          some (d'.callback, calls) ∧
        d'.flowOn = calls.foldl flowAfter d.flowOn := by
  rw [action] at h
  split at h
  · cases h
    exact .inl ⟨rfl, rfl⟩
  · rcases act_cases h with ⟨hcallback, hflow, _⟩ | ⟨_, hcall⟩
    · exact .inl ⟨hcallback, hflow⟩
    · exact .inr hcall

/-! ## Whole streams -/

/-- An action keeps the decoder aligned.  If it calls the unmarshaller, then
with a command from a frame of every stream that begins with the bytes
consumed. -/
theorem Aligned.step {d : AmqpDecoder δ κ} {derived : AmqpDecoderData δ κ}
    (h : Aligned d consumed) (hzero : d.toRead = 0)
    (hact : fsm.action d.next d.buf d.derived =
      (some (toRead, next), derived)) :
    Aligned (Decoder.nextStep toRead next derived) consumed ∧
      (derived.callback = d.derived.callback ∨
        ∃ frame cmd calls, Carries frame cmd ∧
          (∀ stream, consumed <+: stream → frame ∈ amqpFraming.split stream) ∧
          AmqpUnmarshaller.write d.derived.callback cmd =
            some (derived.callback, calls)) := by
  obtain ⟨frames, part, hframes, rfl, hpart⟩ := h
  rw [hzero] at hpart
  have hact' : AmqpDecoder.act d.next d.buf d.derived =
      (some (toRead, next), derived) := by
    have haction : action d.next d.buf d.derived = _ := hact
    rw [action] at haction
    split at haction
    · cases haction
    · exact haction
  rcases hpart.act hact' with ⟨hrest, hsame⟩ | ⟨hframe, hrest, hcall⟩
  · exact ⟨⟨frames, part, hframes, rfl, hrest⟩, .inl hsame⟩
  · refine ⟨⟨frames ++ [part], [], ?_, by simp, hrest⟩, ?_⟩
    · intro frame hmem
      rcases List.mem_append.mp hmem with hmem | hmem
      · exact hframes frame hmem
      · rw [List.mem_singleton.mp hmem]
        exact hframe
    · rcases hcall with hsame | ⟨cmd, calls, hcarries, hwrite⟩
      · exact .inl hsame
      · exact .inr ⟨part, cmd, calls, hcarries, fun stream hstream =>
          Framing.mem_split hframes hframe hstream, hwrite⟩

/-- A decoder whose demux has refused a message stays where it is. -/
theorem Aligned.stop {d : AmqpDecoder δ κ} {derived : AmqpDecoderData δ κ}
    (h : Aligned d consumed)
    (hact : fsm.action d.next d.buf d.derived = (none, derived)) :
    derived.callback = d.derived.callback ∧
      (derived.failed = true ∨
        Aligned { d with derived := derived } consumed) := by
  have haction : action d.next d.buf d.derived = (none, derived) := hact
  rw [action] at haction
  split at haction
  · next hfailed =>
      cases haction
      exact ⟨rfl, .inl hfailed⟩
  · obtain ⟨hsame, hfailed | hnext⟩ := act_eq_none haction
    · exact ⟨hsame, .inl hfailed⟩
    · obtain ⟨frames, part, hframes, rfl, hpart⟩ := h
      refine ⟨hsame, .inr ⟨frames, part, hframes, rfl, ?_⟩⟩
      rw [hnext] at hpart
      show Unfinished d.next d.buf d.toRead derived part
      rw [hnext]
      exact hpart

end AmqpDecoder

end ZeroMQ
