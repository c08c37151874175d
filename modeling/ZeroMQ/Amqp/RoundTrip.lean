import ZeroMQ.Amqp.Client

/-!
# Commands between AMQP codecs

The decoder is fed with the commands the encoder sends.  A method frame has to
have a byte of arguments at least, and it has to fit into `framebuf` together
with its frame-end octet; the marshaller allows for commands without arguments
and for longer ones.  The decoder calls the unmarshaller while it reads a frame,
and an assertion that fails there ends the process as well.

## Main definitions

* `AmqpUnmarshaller.Returns` — no assertion fails in the unmarshaller or in its
  callback, for commands one after the other.

## Main results

* `AmqpDecoder.feed_commands` — commands one after the other, up to the first
  one that makes an assertion fail.
* `commands_round_trip` — which commands pass through the codecs.
-/

namespace ZeroMQ

open Amqp

namespace AmqpUnmarshaller

variable {κ : Type} [AmqpUnmarshaller κ]

/-- The unmarshaller returns from each of the commands in turn. -/
def Returns : κ → List AmqpCommand → Prop
  | _, [] => True
  | k, cmd :: cmds => ∃ p, write k cmd = some p ∧ Returns p.1 cmds

theorem returns_cons {k : κ} {cmd : AmqpCommand} {p : κ × List DecoderCall}
    (h : write k cmd = some p) (cmds : List AmqpCommand) :
    Returns k (cmd :: cmds) ↔ Returns p.1 cmds := by
  constructor
  · rintro ⟨q, hq, hrest⟩
    rw [h] at hq
    cases hq
    exact hrest
  · exact fun hrest => ⟨p, h, hrest⟩

instance Returns.decidable : ∀ (k : κ) (cmds : List AmqpCommand),
    Decidable (Returns k cmds)
  | _, [] => .isTrue trivial
  | k, cmd :: cmds =>
      match h : write k cmd with
      | none => .isFalse fun ⟨_, hp, _⟩ => by rw [h] at hp; cases hp
      | some p =>
          haveI := Returns.decidable p.1 cmds
          decidable_of_iff _ (returns_cons h cmds).symm

end AmqpUnmarshaller

namespace AmqpDecoder

variable {δ κ : Type} [IDemux δ] [AmqpUnmarshaller κ]
  {d d' : AmqpDecoder δ κ} {derived : AmqpDecoderData δ κ} {cmd : AmqpCommand}

theorem action_of_ok {st : AmqpDecoderState} {buf : List UInt8}
    (h : derived.failed = false) :
    action st buf derived = act st buf derived := by
  rw [action, h]
  rfl

/-! ## A method frame -/

/-- The header of a method frame has been read. -/
def afterMethodHeader (d : AmqpDecoderData δ κ) (channel : UInt16)
    (length : Nat) : AmqpDecoderData δ κ :=
  { fill (amqpFrameHeader frameMethod channel length) d with
    channel := channel, bytesRead := length }

theorem toNat_ofNat_length {length : Nat} (h : length < 2 ^ 32) :
    (UInt32.ofNat length).toNat = length := by
  rw [UInt32.toNat_ofNat']
  exact Nat.mod_eq_of_lt h

theorem feed_methodHeader (h : Waiting d) (channel : UInt16) {length : Nat}
    (hlen : length < 2 ^ 32) :
    Decoder.feed fsm d (amqpFrameHeader frameMethod channel length) =
      if length + 1 ≤ frameMinSize then
        (true, Decoder.nextStep (length + 1) .methodPayloadReady
          (afterMethodHeader d.derived channel length))
      else
        (false, ⟨amqpFrameHeader frameMethod channel length, 0,
          .methodFrameHeaderReady,
          { afterMethodHeader d.derived channel length with
            failed := true }⟩) := by
  obtain ⟨htype, hchannel, hlength⟩ := amqpFrameHeader_fields frameMethod
    channel length (d.derived.framebuf.drop 7)
  have hact : action d.next (amqpFrameHeader frameMethod channel length)
      d.derived =
      if length + 1 ≤ frameMinSize then
        (some (length + 1, .methodPayloadReady),
          afterMethodHeader d.derived channel length)
      else
        (none, { afterMethodHeader d.derived channel length with
          failed := true }) := by
    rw [action_of_ok h.failed, h.next]
    simp only [act, methodFrameHeaderReady, fill, overwrite,
      length_amqpFrameHeader, htype, hchannel, hlength,
      toNat_ofNat_length hlen, if_true, afterMethodHeader, fail]
  have hall : (amqpFrameHeader frameMethod channel length).length = d.toRead :=
    h.toRead.symm
  have hne : d.toRead ≠ 0 := by rw [h.toRead]; decide
  split
  · next hle =>
      rw [if_pos hle] at hact
      rw [Decoder.feed_of_some h.buf hall hne hact,
        Decoder.settle_of_pos (Nat.succ_ne_zero length)]
  · next hlt =>
      rw [if_neg hlt] at hact
      rw [Decoder.feed_of_none h.buf hall hne hact, h.next]

/-- The payload of a method frame. -/
def methodPayload (cmd : AmqpCommand) : List UInt8 :=
  putUint16 cmd.classId ++ putUint16 cmd.methodId ++ cmd.args

theorem length_methodPayload (cmd : AmqpCommand) :
    (methodPayload cmd).length = cmd.args.length + 4 := by
  simp only [methodPayload, List.length_append]
  exact Nat.add_comm 4 _

theorem length_payload (cmd : AmqpCommand) :
    (methodPayload cmd ++ [frameEnd]).length = cmd.args.length + 5 := by
  rw [List.length_append, length_methodPayload, List.length_singleton]

theorem methodFrame_eq (cmd : AmqpCommand) :
    methodFrame cmd =
      amqpFrameHeader frameMethod cmd.channel (cmd.args.length + 4) ++
        (methodPayload cmd ++ [frameEnd]) := by
  simp only [methodFrame, methodHeader, methodPayload, List.append_assoc]

theorem getD_frameEnd (payload more : List UInt8) :
    (payload ++ frameEnd :: more).getD payload.length 0 = frameEnd := by
  simp [List.getD_eq_getElem?_getD]

theorem methodPayload_fields (cmd : AmqpCommand) (framebuf : List UInt8) :
    getUint16 (overwrite framebuf (methodPayload cmd ++ [frameEnd])) =
        cmd.classId ∧
      getUint16 ((overwrite framebuf (methodPayload cmd ++ [frameEnd])).drop 2) =
        cmd.methodId ∧
      ((overwrite framebuf (methodPayload cmd ++ [frameEnd])).drop 4).take
        (cmd.args.length + 4 - 4) = cmd.args ∧
      (overwrite framebuf (methodPayload cmd ++ [frameEnd])).getD
        (cmd.args.length + 4) 0 = frameEnd := by
  have hend := getD_frameEnd (methodPayload cmd) (framebuf.drop
    (methodPayload cmd ++ [frameEnd]).length)
  rw [length_methodPayload] at hend
  have hfields : overwrite framebuf (methodPayload cmd ++ [frameEnd]) =
      putUint16 cmd.classId ++ (putUint16 cmd.methodId ++ (cmd.args ++
        frameEnd :: framebuf.drop
          (methodPayload cmd ++ [frameEnd]).length)) := by
    simp [overwrite, methodPayload]
  refine ⟨?_, ?_, ?_, ?_⟩
  · rw [hfields]
    exact getUint16_append _ _
  · rw [hfields]
    exact getUint16_append cmd.methodId _
  · rw [hfields]
    exact List.take_left
  · rw [overwrite, List.append_assoc]
    exact hend

/-- A command is `basic.deliver`. -/
def IsDeliver (cmd : AmqpCommand) : Prop :=
  cmd.classId = basicId ∧ cmd.methodId = basicDeliverId
  deriving Decidable

theorem action_methodPayload (hok : derived.failed = false)
    (hchannel : derived.channel = cmd.channel)
    (hread : derived.bytesRead = cmd.args.length + 4) :
    action .methodPayloadReady (methodPayload cmd ++ [frameEnd]) derived =
      let d := fill (methodPayload cmd ++ [frameEnd]) derived
      if cmd.args = [] then fail d
      else if IsDeliver cmd then
        if d.flowOn = true ∧ cmd.channel = d.messageChannel then
          (some (7, .contentHeaderFrameHeaderReady), d)
        else fail d
      else
        let d := { d with commands := d.commands ++ [cmd] }
        match AmqpUnmarshaller.write d.callback cmd with
        | none => fail d
        | some (callback, calls) =>
            (some (7, .methodFrameHeaderReady),
              calls.foldl called { d with callback := callback }) := by
  obtain ⟨hclass, hmethod, hargs, hend⟩ :=
    methodPayload_fields cmd derived.framebuf
  rw [action_of_ok hok]
  simp only [act, methodPayloadReady, fill, hread, hchannel, hclass, hmethod,
    hargs, hend, and_true, IsDeliver]
  by_cases hnil : cmd.args = []
  · rw [if_pos hnil, if_neg (by rw [hnil, List.length_nil]; omega)]
  · have := List.length_pos_iff.mpr hnil
    rw [if_neg hnil]
    exact if_pos (by omega)

/-- A command is passed to the unmarshaller.  If that returns, the decoder waits
for the next method frame, whatever the callback has done to it. -/
theorem action_command {p : κ × List DecoderCall} (hok : derived.failed = false)
    (hchannel : derived.channel = cmd.channel)
    (hread : derived.bytesRead = cmd.args.length + 4) (hnil : cmd.args ≠ [])
    (hdeliver : ¬ IsDeliver cmd)
    (hwrite : AmqpUnmarshaller.write derived.callback cmd = some p) :
    ∃ derived', action .methodPayloadReady (methodPayload cmd ++ [frameEnd])
        derived = (some (7, .methodFrameHeaderReady), derived') ∧
      derived'.failed = false ∧ derived'.callback = p.1 ∧
      derived'.commands = derived.commands ++ [cmd] := by
  obtain ⟨callback, calls⟩ := p
  refine ⟨calls.foldl called
    { fill (methodPayload cmd ++ [frameEnd]) derived with
      commands := derived.commands ++ [cmd], callback := callback }, ?_, ?_⟩
  · rw [action_methodPayload hok hchannel hread]
    simp only [if_neg hnil, if_neg hdeliver, fill, hwrite]
  · obtain ⟨hcallback, hcommands, hfailed⟩ := foldl_called calls
      { fill (methodPayload cmd ++ [frameEnd]) derived with
        commands := derived.commands ++ [cmd], callback := callback }
    exact ⟨hfailed.trans hok, hcallback, hcommands⟩

/-- The arguments of a command are not too short and not too long for the
decoder. -/
def ArgsFit (cmd : AmqpCommand) : Prop :=
  1 ≤ cmd.args.length ∧ cmd.args.length + 5 ≤ frameMinSize
  deriving Decidable

/-- The whole of a method frame: its header, and then its payload if the frame
fits into `framebuf`. -/
theorem feed_methodFrame (h : Waiting d) (cmd : AmqpCommand)
    (hlen : cmd.args.length + 5 ≤ frameMinSize) :
    Decoder.feed fsm d (methodFrame cmd) =
      Decoder.feed fsm
        (Decoder.nextStep (cmd.args.length + 5) .methodPayloadReady
          (afterMethodHeader d.derived cmd.channel (cmd.args.length + 4)))
        (methodPayload cmd ++ [frameEnd]) := by
  have hsize : frameMinSize = 4096 := rfl
  rw [methodFrame_eq, Decoder.feed_append,
    feed_methodHeader h cmd.channel (by omega), if_pos hlen, if_pos rfl]

/-- A command that fits is passed to the unmarshaller. -/
theorem feed_command {p : κ × List DecoderCall} (h : Waiting d)
    (hdeliver : ¬ IsDeliver cmd) (hfit : ArgsFit cmd)
    (hwrite : AmqpUnmarshaller.write d.derived.callback cmd = some p) :
    ∃ d', Decoder.feed fsm d (methodFrame cmd) = (true, d') ∧ Waiting d' ∧
      d'.derived.callback = p.1 ∧
      d'.derived.commands = d.derived.commands ++ [cmd] := by
  let first := afterMethodHeader d.derived cmd.channel (cmd.args.length + 4)
  obtain ⟨derived, hact, hfailed, hcallback, hcommands⟩ :=
    action_command (show first.failed = false from h.failed) rfl rfl
      (List.length_pos_iff.mp hfit.1) hdeliver hwrite
  refine ⟨Decoder.nextStep 7 .methodFrameHeaderReady derived, ?_,
    ⟨rfl, rfl, rfl, hfailed⟩, hcallback, hcommands⟩
  rw [feed_methodFrame h cmd hfit.2, Decoder.feed_of_some rfl
    (length_payload cmd) (Nat.succ_ne_zero _) hact]
  exact Decoder.settle_of_pos (show (7 : Nat) ≠ 0 by decide)

/-- A command that fits and from which the unmarshaller does not return. -/
theorem feed_unreturned (h : Waiting d) (hdeliver : ¬ IsDeliver cmd)
    (hfit : ArgsFit cmd)
    (hwrite : AmqpUnmarshaller.write d.derived.callback cmd = none) :
    ∃ d', Decoder.feed fsm d (methodFrame cmd) = (false, d') ∧
      d'.derived.failed = true := by
  let first := afterMethodHeader d.derived cmd.channel (cmd.args.length + 4)
  have hact := action_methodPayload (show first.failed = false from h.failed)
    (show first.channel = cmd.channel from rfl) rfl
  have hnone : AmqpUnmarshaller.write first.callback cmd = none := hwrite
  simp only [if_neg (List.length_pos_iff.mp hfit.1), if_neg hdeliver, fill,
    hnone, fail] at hact
  rw [feed_methodFrame h cmd hfit.2, Decoder.feed_of_none rfl
    (length_payload cmd) (Nat.succ_ne_zero _) hact]
  exact ⟨_, rfl, rfl⟩

/-- A command that does not fit makes an assertion fail. -/
theorem feed_misfit (h : Waiting d) (hlen : cmd.args.length ≤ frameMinSize)
    (hfit : ¬ ArgsFit cmd) :
    ∃ d', Decoder.feed fsm d (methodFrame cmd) = (false, d') ∧
      d'.derived.failed = true := by
  have hsize : frameMinSize = 4096 := rfl
  by_cases hle : cmd.args.length + 5 ≤ frameMinSize
  · -- there are no arguments
    have hnil : cmd.args = [] := by
      by_contra hne
      exact hfit ⟨List.length_pos_iff.mpr hne, hle⟩
    let first := afterMethodHeader d.derived cmd.channel (cmd.args.length + 4)
    have hact := action_methodPayload (show first.failed = false from h.failed)
      (show first.channel = cmd.channel from rfl) rfl
    simp only [if_pos hnil, fail] at hact
    rw [feed_methodFrame h cmd hle, Decoder.feed_of_none rfl
      (length_payload cmd) (Nat.succ_ne_zero _) hact]
    exact ⟨_, rfl, rfl⟩
  · rw [methodFrame_eq, Decoder.feed_append,
      feed_methodHeader h cmd.channel (by omega), if_neg hle, if_neg (by simp)]
    exact ⟨_, rfl, rfl⟩

/-- Commands one after the other; the first one that does not fit, or from which
the unmarshaller does not return, makes an assertion fail. -/
theorem feed_commands (cmds : List AmqpCommand) (h : Waiting d)
    (hcmds : ∀ cmd ∈ cmds, cmd.args.length ≤ frameMinSize ∧ ¬ IsDeliver cmd) :
    ((∀ cmd ∈ cmds, ArgsFit cmd) ∧
        AmqpUnmarshaller.Returns d.derived.callback cmds) ∧
        (∃ d', Decoder.feed fsm d (cmds.flatMap methodFrame) = (true, d') ∧
          Waiting d' ∧ d'.derived.commands = d.derived.commands ++ cmds) ∨
      ¬ ((∀ cmd ∈ cmds, ArgsFit cmd) ∧
          AmqpUnmarshaller.Returns d.derived.callback cmds) ∧
        ∃ d', Decoder.feed fsm d (cmds.flatMap methodFrame) = (false, d') ∧
          d'.derived.failed = true := by
  induction cmds generalizing d with
  | nil => exact .inl ⟨⟨by simp, trivial⟩, d, rfl, h, (List.append_nil _).symm⟩
  | cons cmd cmds ih =>
      obtain ⟨⟨hlen, hdeliver⟩, hcmds⟩ := List.forall_mem_cons.mp hcmds
      rw [List.forall_mem_cons, List.flatMap_cons, Decoder.feed_append]
      by_cases hfit : ArgsFit cmd
      · cases hwrite : AmqpUnmarshaller.write d.derived.callback cmd with
        | none =>
            obtain ⟨d', hfeed, hfailed⟩ := feed_unreturned h hdeliver hfit hwrite
            rw [hfeed, if_neg (by simp)]
            refine .inr ⟨?_, d', rfl, hfailed⟩
            rintro ⟨_, p, hp, _⟩
            rw [hwrite] at hp
            cases hp
        | some p =>
            obtain ⟨d', hfeed, hd', hcallback, hcommands⟩ :=
              feed_command h hdeliver hfit hwrite
            rw [hfeed, if_pos rfl, AmqpUnmarshaller.returns_cons hwrite,
              ← hcallback]
            rcases ih hd' hcmds with
              ⟨⟨hall, hreturns⟩, d'', hfeed', hd'', hcommands'⟩ |
                ⟨hbad, d'', hfeed', hfailed⟩
            · refine .inl ⟨⟨⟨hfit, hall⟩, hreturns⟩, d'', hfeed', hd'', ?_⟩
              rw [hcommands', hcommands, List.append_assoc,
                List.singleton_append]
            · exact .inr ⟨fun hgood => hbad ⟨hgood.1.2, hgood.2⟩, d'', hfeed',
                hfailed⟩
      · obtain ⟨d', hfeed, hfailed⟩ := feed_misfit h hlen hfit
        rw [hfeed, if_neg (by simp)]
        exact .inr ⟨fun hgood => hfit hgood.1.1, d', rfl, hfailed⟩

/-! ## Pieces -/

theorem writes_of_failed (hfailed : d.derived.failed = true)
    (hread : d.toRead = 0) (pieces : List (List UInt8))
    (h : d.writes pieces = some d') : d'.derived.failed = true := by
  induction pieces with
  | nil =>
      cases h
      exact hfailed
  | cons piece pieces ih =>
      have hact : fsm.action d.next d.buf d.derived = (none, d.derived) := by
        simp only [fsm, action, hfailed, if_true]
      have hwrite := Decoder.write_of_none hread hact piece
      simp only [writes, Decoder.writes, hwrite] at h
      split at h
      · exact ih h
      · cases h

/-- An assertion that fails when the bytes are seen as a whole fails when they
are cut. -/
theorem failed_of_writes (hread : d.toRead ≠ 0) {stuck : AmqpDecoder δ κ}
    (pieces : List (List UInt8))
    (hfeed : Decoder.feed fsm d pieces.flatten = (false, stuck))
    (hfailed : stuck.derived.failed = true)
    (h : d.writes pieces = some d') : d'.derived.failed = true := by
  induction pieces generalizing d with
  | nil => cases hfeed
  | cons piece pieces ih =>
      have hd := (Decoder.write_eq_feed fsm d piece hread).1
      simp only [writes, Decoder.writes] at h
      split at h
      · rw [List.flatten_cons, Decoder.feed_append] at hfeed
        split at hfeed
        · next htrue =>
            exact ih (Decoder.feed_toRead hread htrue) hfeed (hd ▸ h)
        · next hfalse =>
            have hzero := Decoder.feed_stuck (congrArg Prod.fst hfeed)
            rw [hd, hfeed] at h
            rw [hfeed] at hzero
            exact writes_of_failed hfailed hzero pieces h
      · cases h

end AmqpDecoder

/-! ## Commands -/

namespace AmqpEncoder

theorem derived_foldl_push (cmds : List AmqpCommand)
    (e : AmqpEncoder (List Message)) :
    (cmds.foldl push e).data = e.data ∧ (cmds.foldl push e).next = e.next ∧
      (cmds.foldl push e).derived.flowOn = e.derived.flowOn ∧
      (cmds.foldl push e).derived.failed = e.derived.failed ∧
      (cmds.foldl push e).derived.commandQueue.map Prod.snd =
        e.derived.commandQueue.map Prod.snd ++ cmds := by
  induction cmds generalizing e with
  | nil => exact ⟨rfl, rfl, rfl, rfl, (List.append_nil _).symm⟩
  | cons cmd cmds ih =>
      obtain ⟨hdata, hnext, hflow, hfailed, hqueue⟩ := ih (push e cmd)
      refine ⟨hdata, hnext, hflow, hfailed, ?_⟩
      rw [List.foldl_cons, hqueue]
      simp [push]

/-- The output of an encoder with commands in its queue, the flow being off. -/
theorem reads_commands (mux : List Message) (queue : List UInt8)
    (cmds : List AmqpCommand) (sizes : List Nat) :
    ((cmds.foldl push (create mux queue)).reads sizes).2 =
      (protocolHeader ++ cmds.flatMap methodFrame).take sizes.sum := by
  obtain ⟨hdata, hnext, hflow, hfailed, hqueue⟩ :=
    derived_foldl_push cmds (create mux queue)
  have hframes : (cmds.foldl push (create mux queue)).derived.commandQueue.flatMap
      (fun c => methodFrame c.2) = cmds.flatMap methodFrame := by
    rw [← List.flatMap_map Prod.snd methodFrame, hqueue]
    rfl
  have hready : Ready (cmds.foldl push (create mux queue)).next
      (cmds.foldl push (create mux queue)).derived := by
    refine ⟨hfailed, fun hon => ?_, by rw [hnext]; simp [create]⟩
    rw [hflow] at hon
    cases hon
  have hqueued : queued (cmds.foldl push (create mux queue)).derived =
      cmds.flatMap methodFrame := by
    rw [queued, hframes, if_neg (by rw [hflow]; simp [create]),
      List.append_nil]
  rw [reads_eq _ sizes hready, hdata, hnext, ← hqueued]
  rfl

end AmqpEncoder

/-- Which commands pass through the codecs.  The encoder fills buffers of any
sizes that take all of its output, and this is passed to the decoder, without
the protocol header, in pieces of any sizes.  Then no assertion fails and the
unmarshaller gets the commands that were queued if and only if each of them has
arguments, and not too many of them, and the unmarshaller returns from each. -/
theorem commands_round_trip {δ κ : Type} [IDemux δ] [AmqpUnmarshaller κ]
    (demux : δ) (callback : κ) (mux : List Message) (queue : List UInt8)
    (cmds : List AmqpCommand)
    (hcmds : ∀ cmd ∈ cmds, cmd.args.length ≤ frameMinSize ∧
      ¬ (cmd.classId = basicId ∧ cmd.methodId = basicDeliverId))
    (sizes : List Nat) (pieces : List (List UInt8))
    (hall : 8 + (cmds.flatMap methodFrame).length ≤ sizes.sum)
    (hcut : pieces.flatten =
      ((cmds.foldl AmqpEncoder.push (AmqpEncoder.create mux queue)).reads
        sizes).2.drop 8) :
    (∃ d, (AmqpDecoder.create demux callback).writes pieces = some d ∧
        d.derived.failed = false ∧ d.derived.commands = cmds) ↔
      (∀ cmd ∈ cmds, 1 ≤ cmd.args.length ∧
        cmd.args.length ≤ frameMinSize - 5) ∧
      AmqpUnmarshaller.Returns callback cmds := by
  have hbytes : pieces.flatten = cmds.flatMap methodFrame := by
    rw [hcut, AmqpEncoder.reads_commands, List.take_of_length_le]
    · rfl
    · rw [List.length_append]
      exact hall
  have hwaiting : (AmqpDecoder.create demux callback).Waiting :=
    ⟨rfl, rfl, rfl, rfl⟩
  have hread : (AmqpDecoder.create demux callback).toRead ≠ 0 := by
    rw [hwaiting.toRead]
    decide
  have hfits : (∀ cmd ∈ cmds, AmqpDecoder.ArgsFit cmd) ↔
      ∀ cmd ∈ cmds, 1 ≤ cmd.args.length ∧
        cmd.args.length ≤ frameMinSize - 5 := by
    have hsize : frameMinSize = 4096 := rfl
    simp only [AmqpDecoder.ArgsFit, hsize]
    constructor
    · exact fun h cmd hmem => ⟨(h cmd hmem).1, by have := (h cmd hmem).2; omega⟩
    · exact fun h cmd hmem => ⟨(h cmd hmem).1, by have := (h cmd hmem).2; omega⟩
  rw [← hfits]
  rcases AmqpDecoder.feed_commands cmds hwaiting hcmds with
    ⟨hgood, d, hfeed, hd, hcommands⟩ | ⟨hbad, d, hfeed, hfailed⟩
  · rw [← hbytes] at hfeed
    refine ⟨fun _ => hgood, fun _ => ⟨d, ?_, hd.failed, hcommands⟩⟩
    exact Decoder.writes_of_feed hread pieces hfeed
  · rw [← hbytes] at hfeed
    refine ⟨?_, fun hgood => (hbad hgood).elim⟩
    rintro ⟨d', hwrites, hok, _⟩
    have := AmqpDecoder.failed_of_writes hread pieces hfeed hfailed hwrites
    rw [hok] at this
    cases this

/-- A client that has sent the protocol header. -/
def headerSent : AmqpCore (List Message) :=
  { (AmqpClient.create 64 64 [] () [113] (some 3) 0 0).core with
    state := .waitingForConnectionStart }

/-- The whole handshake, cut in the arguments of its first command, passes to
the client. -/
theorem commands_round_trip_handshake :
    ∃ d, (AmqpDecoder.create () headerSent).writes
        [(handshake.flatMap methodFrame).take 15,
          (handshake.flatMap methodFrame).drop 15] = some d ∧
      d.derived.failed = false ∧ d.derived.commands = handshake :=
  (commands_round_trip () headerSent [] [] handshake (by decide) [5, 200]
    [(handshake.flatMap methodFrame).take 15,
      (handshake.flatMap methodFrame).drop 15]
    (by decide +kernel) (by decide +kernel)).mpr (by decide +kernel)

/-- What a new encoder sends for `connection.close_ok` with these arguments. -/
def closeOkSent (args : List UInt8) : List UInt8 :=
  ((AmqpEncoder.push (AmqpEncoder.create ([] : List Message) [])
    ⟨0, 10, 51, args⟩).reads [5000]).2

/-- A new decoder that has been passed these bytes behind the protocol header. -/
def closeOkReceived (args : List UInt8) : AmqpDecoder Unit Unit :=
  ((AmqpDecoder.create () ()).write ((closeOkSent args).drop 8)).1

/-- `connection.close_ok` has no arguments, and 4092 bytes of arguments are
within the buffer of the marshaller: the encoder sends such commands, and the
decoder aborts. -/
theorem misfit_aborts :
    ((closeOkSent []).length = 20 ∧
      (closeOkReceived []).derived.failed = true ∧
      (closeOkReceived []).derived.commands = []) ∧
    (closeOkSent (List.replicate 4092 0)).length = 20 + 4092 ∧
      (closeOkReceived (List.replicate 4092 0)).derived.failed = true ∧
      (closeOkReceived (List.replicate 4092 0)).derived.commands = [] := by
  decide +kernel

end ZeroMQ
