import ZeroMQ.Codec.Bp

/-!
# The backend protocol decodes what it encodes

The decoder is followed byte by byte: what it has consumed frames the messages
it has pushed, but for one frame it is still working on.  Since an encoding can
be parsed in one way only, these are the messages that were encoded, and when
all bytes have been consumed nothing is left to work on.

## Main results

* `BpDecoder.write_spec` — what has entered the decoder frames the messages
  pushed, but for an unfinished frame.
* `BpEncoder.reads_eq` — the output of the encoder does not depend on the sizes
  of the buffers.
* `bp_round_trip` — the decoder pushes what the encoder pulled, whatever the
  sizes of the buffers on either side.
-/

namespace ZeroMQ

namespace BpDecoder

variable {δ : Type} [IDemux δ] {d : BpDecoder δ} {base : List Message}
  {seen : List UInt8}

/-- The bytes of the frame the decoder is working on. -/
inductive Unfinished (d : BpDecoder δ) : List UInt8 → Prop where
  | size (hnext : d.next = .oneByteSizeReady)
      (hlen : d.buf.length + d.toRead = 1) : Unfinished d d.buf
  | longSize (hnext : d.next = .eightByteSizeReady)
      (hlen : d.buf.length + d.toRead = 8) : Unfinished d (0xff :: d.buf)
  | body {header : List UInt8} (hnext : d.next = .messageReady)
      (hsize : BpSize header (d.buf.length + d.toRead)) :
      Unfinished d (header ++ d.buf)

/-- The bytes `seen` since the messages `base` were pushed frame the messages
pushed after them, and a frame the decoder is working on. -/
def Parsed (base : List Message) (d : BpDecoder δ) (seen : List UInt8) :
    Prop :=
  ∃ bytes ms rest, seen = bytes ++ rest ∧ d.derived.pushed = base ++ ms ∧
    BpFramed bytes ms ∧ Unfinished d rest

omit [IDemux δ] in
theorem Unfinished.of_initial (h : d.Initial) : Unfinished d [] := by
  obtain ⟨hbuf, hread, hnext⟩ := h
  have hsize := Unfinished.size hnext (by rw [hbuf, hread]; rfl)
  rwa [hbuf] at hsize

omit [IDemux δ] in
theorem Parsed.of_initial (h : d.Initial) : Parsed d.derived.pushed d [] :=
  ⟨[], [], [], rfl, by simp, .nil, .of_initial h⟩

omit [IDemux δ] in
/-- Bytes copied to the buffer belong to the frame being worked on. -/
theorem Unfinished.copy {rest bytes : List UInt8} (h : Unfinished d rest)
    (hle : bytes.length ≤ d.toRead) :
    Unfinished (d.copy bytes) (rest ++ bytes) := by
  have hlen : (d.copy bytes).buf.length + (d.copy bytes).toRead =
      d.buf.length + d.toRead := by
    simp only [Decoder.copy, List.length_append]
    omega
  cases h with
  | size hnext hsize =>
      exact .size hnext (by rw [hlen, hsize])
  | longSize hnext hsize =>
      exact .longSize hnext (by rw [hlen, hsize])
  | @body header hnext hsize =>
      rw [List.append_assoc]
      exact .body hnext (by rw [hlen]; exact hsize)

omit [IDemux δ] in
theorem Parsed.copy {seen bytes : List UInt8} (h : Parsed base d seen)
    (hle : bytes.length ≤ d.toRead) :
    Parsed base (d.copy bytes) (seen ++ bytes) := by
  obtain ⟨frames, ms, rest, hseen, hpushed, hframed, hrest⟩ := h
  refine ⟨frames, ms, rest ++ bytes, ?_, hpushed, hframed, hrest.copy hle⟩
  rw [hseen, List.append_assoc]

/-- An action goes from one part of the frame to the next, or pushes the
message and starts a new frame. -/
theorem Parsed.step {toRead : Nat} {next : BpDecoderState}
    {derived : BpDecoderData δ} (h : Parsed base d seen) (hzero : d.toRead = 0)
    (hact : action d.next d.buf d.derived = (some (toRead, next), derived)) :
    Parsed base (Decoder.nextStep toRead next derived) seen := by
  obtain ⟨frames, ms, rest, hseen, hpushed, hframed, hrest⟩ := h
  cases hrest with
  | size hnext hlen =>
      rw [hzero, Nat.add_zero] at hlen
      obtain ⟨b, hb⟩ := List.length_eq_one_iff.mp hlen
      simp only [hnext, action, hb, List.headD_cons] at hact
      split at hact
      · next hesc =>
          cases hact
          refine ⟨frames, ms, [0xff], ?_, hpushed, hframed, ?_⟩
          · rw [hseen, hb, hesc]
          · exact .longSize rfl rfl
      · next hesc =>
          simp only [Prod.mk.injEq, Option.some.injEq] at hact
          obtain ⟨⟨rfl, rfl⟩, rfl⟩ := hact
          refine ⟨frames, ms, [b] ++ [], ?_, hpushed, hframed, ?_⟩
          · rw [hseen, hb, List.append_nil]
          · apply Unfinished.body rfl
            simpa [Decoder.nextStep] using BpSize.short b hesc
  | longSize hnext hlen =>
      rw [hzero, Nat.add_zero] at hlen
      simp only [hnext, action, Prod.mk.injEq, Option.some.injEq] at hact
      obtain ⟨⟨rfl, rfl⟩, rfl⟩ := hact
      refine ⟨frames, ms, (0xff :: d.buf) ++ [], ?_, hpushed, hframed, ?_⟩
      · rw [hseen, List.append_nil]
      · apply Unfinished.body rfl
        simpa [Decoder.nextStep] using BpSize.long d.buf hlen
  | @body header hnext hsize =>
      rw [hzero, Nat.add_zero] at hsize
      simp only [hnext, action] at hact
      split at hact
      · cases hact
      · cases hact
        refine ⟨frames ++ (header ++ d.buf), ms ++ [d.buf], [], ?_, ?_,
          hframed.snoc hsize, .of_initial ⟨rfl, rfl, rfl⟩⟩
        · rw [hseen, List.append_nil]
        · simp [Decoder.nextStep, hpushed]

omit [IDemux δ] in
theorem Parsed.derived {derived : BpDecoderData δ} (h : Parsed base d seen)
    (hsame : derived.pushed = d.derived.pushed) :
    Parsed base { d with derived := derived } seen := by
  obtain ⟨frames, ms, rest, hseen, hpushed, hframed, hrest⟩ := h
  refine ⟨frames, ms, rest, hseen, hsame.trans hpushed, hframed, ?_⟩
  cases hrest with
  | size hnext hlen => exact .size hnext hlen
  | longSize hnext hlen => exact .longSize hnext hlen
  | body hnext hsize => exact .body hnext hsize

theorem action_pushed (st : BpDecoderState) (buf : List UInt8)
    (d : BpDecoderData δ) : d.pushed <+: (action st buf d).2.pushed := by
  unfold action
  split
  · split <;> exact List.prefix_rfl
  · exact List.prefix_rfl
  · split
    · exact List.prefix_rfl
    · exact List.prefix_append _ _

theorem Parsed.stop {derived : BpDecoderData δ} (h : Parsed base d seen)
    (hact : action d.next d.buf d.derived = (none, derived)) :
    Parsed base { d with derived := derived } seen := by
  obtain ⟨-, -, hsame⟩ := action_eq_none hact
  exact h.derived hsame

theorem pushed_write (d : BpDecoder δ) (data : List UInt8) :
    d.derived.pushed <+: (d.write data).1.derived.pushed := by
  have hgrow : ∀ (d' : BpDecoder δ) {result : Option (Nat × BpDecoderState)}
      {derived : BpDecoderData δ},
      d.derived.pushed <+: d'.derived.pushed →
      action d'.next d'.buf d'.derived = (result, derived) →
      d.derived.pushed <+: derived.pushed := by
    intro d' result derived h hact
    have hpushed := action_pushed d'.next d'.buf d'.derived
    rw [hact] at hpushed
    exact h.trans hpushed
  refine Decoder.write_invariant
    (I := fun (d' : BpDecoder δ) (_ : List UInt8) =>
      d.derived.pushed <+: d'.derived.pushed)
    ?_ ?_ ?_ d data [] (List.prefix_refl _)
  · exact fun _ _ _ h _ => h
  · exact fun d' _ _ _ _ h _ hact => hgrow d' h hact
  · exact fun d' _ _ h _ hact => hgrow d' h hact

/-- What has entered the decoder, for any bytes and any refusals. -/
theorem write_spec (h : Parsed base d seen) (data : List UInt8) :
    Parsed base (d.write data).1 (seen ++ data.take (d.write data).2) :=
  Decoder.write_invariant (I := Parsed base)
    (fun _ _ _ h hle => h.copy hle)
    (fun _ _ _ _ _ h hzero hact => h.step hzero hact)
    (fun _ _ _ h _ hact => h.stop hact) d data seen h

omit [IDemux δ] in
/-- A decoder that wants more bytes has not seen a whole frame. -/
theorem Unfinished.not_frame {rest header m : List UInt8}
    (h : Unfinished d rest) (hread : d.toRead ≠ 0)
    (hheader : BpSize header m.length) : ¬ header ++ m <+: rest := by
  intro hpre
  have hle := hpre.length_le
  rw [List.length_append] at hle
  have hpos := List.length_pos_iff.mpr hheader.ne_nil
  cases h with
  | size hnext hlen => omega
  | longSize hnext hlen =>
      rw [List.length_cons] at hle
      generalize m.length = n at hheader hle
      cases hheader with
      | short b hb => exact hb (List.cons_prefix_cons.mp hpre).1
      | long bytes hlen' =>
          rw [List.length_cons] at hle
          omega
  | @body header' hnext hsize =>
      obtain ⟨rfl, hn⟩ := hheader.unique hsize hpre
      rw [List.length_append] at hle
      omega

omit [IDemux δ] in
/-- A decoder that has seen nothing of the next frame is at its beginning. -/
theorem Unfinished.initial (h : Unfinished d []) : d.Initial := by
  generalize hrest : ([] : List UInt8) = rest at h
  cases h with
  | size hnext hlen =>
      rw [← hrest, List.length_nil, Nat.zero_add] at hlen
      exact ⟨hrest.symm, hlen, hnext⟩
  | longSize hnext hlen => cases hrest
  | body hnext hsize =>
      exact (hsize.ne_nil (List.append_eq_nil_iff.mp hrest.symm).1).elim

omit [IDemux δ] in
/-- When the whole encoding has been consumed and nothing was refused, every
message has been pushed. -/
theorem Parsed.all_of_bpEncode {base msgs : List Message}
    (h : Parsed base d (bpEncode msgs)) (hlen : ∀ m ∈ msgs, m.length < 2 ^ 64)
    (hread : d.toRead ≠ 0) :
    d.derived.pushed = base ++ msgs ∧ d.Initial := by
  obtain ⟨frames, ms, rest, hseen, hpushed, hframed, hrest⟩ := h
  have hframes : frames <+: bpEncode msgs :=
    hseen ▸ List.prefix_append frames rest
  obtain ⟨rfl, left, rfl⟩ := hframed.prefix_of_bpEncode hlen hframes
  rw [bpEncode_append] at hseen
  have hleft : bpEncode left = rest := List.append_cancel_left hseen
  cases left with
  | nil =>
      subst hleft
      exact ⟨by simpa using hpushed, hrest.initial⟩
  | cons m left =>
      have hm : m.length < 2 ^ 64 := hlen m (by simp)
      exfalso
      apply hrest.not_frame hread (BpSize.of_bpHeader hm)
      rw [← hleft, bpEncode_cons, bpFrame]
      exact List.prefix_append _ _

/-- The pieces are written one after the other, as long as each of them is
consumed completely. -/
def writes (d : BpDecoder δ) (pieces : List (List UInt8)) :
    Option (BpDecoder δ) :=
  Decoder.writes fsm d pieces

/-- A demux that refuses nothing lets `write` consume its buffer. -/
theorem write_all (haccept : ∀ (demux : δ) m, (IDemux.write demux m).1 = true)
    (d : BpDecoder δ) (data : List UInt8) :
    (d.write data).2 = data.length ∧ (d.write data).1.toRead ≠ 0 := by
  rcases Decoder.write_cases fsm d data with hall | ⟨_, derived, hact⟩
  · exact hall
  · obtain ⟨-, hrefused, -⟩ := action_eq_none hact
    rw [haccept] at hrefused
    cases hrefused

/-- However a byte string is cut, the decoder sees it as a whole. -/
theorem writes_spec (haccept : ∀ (demux : δ) m, (IDemux.write demux m).1 = true)
    (h : Parsed base d seen) (hread : d.toRead ≠ 0)
    (pieces : List (List UInt8)) :
    ∃ d', d.writes pieces = some d' ∧ d'.toRead ≠ 0 ∧
      Parsed base d' (seen ++ pieces.flatten) := by
  induction pieces generalizing d seen with
  | nil => exact ⟨d, rfl, hread, by simpa using h⟩
  | cons piece pieces ih =>
      obtain ⟨hall, hread'⟩ := write_all haccept d piece
      have hpiece := write_spec h piece
      rw [hall, List.take_length] at hpiece
      obtain ⟨d', hwrites, hd', hparsed⟩ := ih hpiece hread'
      refine ⟨d', ?_, hd', by simpa using hparsed⟩
      rw [writes, Decoder.writes]
      exact (if_pos hall).trans hwrites

end BpDecoder

/-! ## A list of messages through the encoder -/

namespace BpEncoder

/-- Buffers of the given sizes are filled one after the other. -/
def reads (e : BpEncoder (List Message)) (sizes : List Nat) :
    BpEncoder (List Message) × List UInt8 :=
  Encoder.reads fsm e sizes

/-- Everything the encoder has still to send. -/
def unsent (e : BpEncoder (List Message)) : List UInt8 :=
  pending e ++ bpEncode e.derived.mux

/-- The bytes behind the part that is being sent. -/
def rest (st : BpEncoderState) (d : BpEncoderData (List Message)) :
    List UInt8 :=
  match st with
  | .sizeReady => d.message ++ bpEncode d.mux
  | .messageReady => bpEncode d.mux

theorem unsent_eq (e : BpEncoder (List Message)) :
    e.unsent = Encoder.unsent rest e := by
  cases hnext : e.next <;> simp [unsent, pending, Encoder.unsent, rest, hnext]

/-- An action sends the next part: a body, or the header of the first message
of the mux. -/
theorem rest_step {st : BpEncoderState} {d d' : BpEncoderData (List Message)}
    {step : EncoderStep BpEncoderState}
    (hact : fsm.action st d = (some step, d')) :
    rest st d = step.data ++ rest step.next d' := by
  cases st with
  | sizeReady =>
      cases hact
      rfl
  | messageReady =>
      cases hmux : d.mux with
      | nil =>
          simp [fsm, action, Mux.read, hmux] at hact
      | cons m ms =>
          simp only [fsm, action, Mux.read, hmux] at hact
          cases hact
          simp [rest, hmux, bpFrame]

/-- An encoder that has nothing to send has sent all the messages. -/
theorem rest_stop {st : BpEncoderState} {d d' : BpEncoderData (List Message)}
    (hact : fsm.action st d = (none, d')) :
    rest st d = [] ∧ rest st d' = [] := by
  cases st with
  | sizeReady => cases hact
  | messageReady =>
      cases hmux : d.mux with
      | nil =>
          simp only [fsm, action, Mux.read, hmux] at hact
          cases hact
          simp [rest, hmux]
      | cons m ms =>
          simp [fsm, action, Mux.read, hmux] at hact

/-- The output does not depend on how the buffers are cut. -/
theorem reads_eq (e : BpEncoder (List Message)) (sizes : List Nat) :
    (e.reads sizes).2 = e.unsent.take sizes.sum := by
  rw [unsent_eq]
  exact Encoder.reads_eq (P := fun _ _ => True)
    (fun _ hact => ⟨trivial, rest_step hact⟩)
    (fun _ hact => ⟨trivial, rest_stop hact⟩) e sizes trivial

end BpEncoder

/-- The round trip of the backend protocol.  Buffers of any sizes are filled by
the encoder; their contents depend on the messages only.  If they take all of
the output and it is passed to the decoder in pieces of any sizes, every piece
is consumed, the messages pushed are those that were encoded, and the decoder
is in its initial state. -/
theorem bp_round_trip {δ : Type} [IDemux δ] (demux : δ)
    (haccept : ∀ (demux : δ) m, (IDemux.write demux m).1 = true)
    (msgs : List Message) (hlen : ∀ m ∈ msgs, m.length < 2 ^ 63)
    (sizes : List Nat) (pieces : List (List UInt8))
    (hcut : pieces.flatten = ((BpEncoder.create msgs).reads sizes).2) :
    pieces.flatten = (bpEncode msgs).take sizes.sum ∧
      ((bpEncode msgs).length ≤ sizes.sum →
        ∃ d, (BpDecoder.create demux).writes pieces = some d ∧
          d.derived.pushed = msgs ∧ d.Initial) := by
  have hout : pieces.flatten = (bpEncode msgs).take sizes.sum := by
    rw [hcut, BpEncoder.reads_eq]
    rfl
  refine ⟨hout, fun hall => ?_⟩
  have hinit : Decoder.toRead (BpDecoder.create demux) ≠ 0 := by
    simp [BpDecoder.create]
  obtain ⟨d, hwrites, hread, hparsed⟩ :=
    BpDecoder.writes_spec haccept (BpDecoder.Parsed.of_initial
      (d := BpDecoder.create demux) ⟨rfl, rfl, rfl⟩) hinit pieces
  rw [List.nil_append, hout, List.take_of_length_le hall] at hparsed
  have hlen' : ∀ m ∈ msgs, m.length < 2 ^ 64 := fun m hm =>
    Nat.lt_trans (hlen m hm) (by decide)
  obtain ⟨hpushed, hinitial⟩ := hparsed.all_of_bpEncode hlen' hread
  exact ⟨d, hwrites, by simpa [BpDecoder.create] using hpushed, hinitial⟩

/-- An empty message and a message of two bytes, cut across the frames. -/
theorem bp_round_trip_two_messages :
    ∃ d, (BpDecoder.create ()).writes [[0, 2], [], [7], [8]] = some d ∧
      d.derived.pushed = [[], [7, 8]] ∧ d.Initial :=
  (bp_round_trip () (fun _ _ => rfl) [[], [7, 8]] (by decide) [1, 2, 5]
    [[0, 2], [], [7], [8]] (by decide +kernel)).2 (by decide +kernel)

end ZeroMQ
