import ZeroMQ.Codec.RoundTrip
import ZeroMQ.Lib.Run

/-!
# `bp_pgm_sender_t`

The sending PGM engine (`libzmq/bp_pgm_sender.cpp`) cuts the stream of encoded
messages into packets.  A receiver may see any of them first, so each packet
starts with the position of the first message header in it.

The position comes from `encoder_t::read`: an action of the encoder announces
that a message begins with its `beginning` flag, and the flag is looked at,
cleared or overwritten only when the next action is taken, perhaps in the next
packet.  The mux is arbitrary: it may have a message or none whenever it is
asked.

## Main definitions

* `startOf` — where a message begins in the encoded stream.
* `FirstHeader` — the position of the first header in a stretch of the stream.

## Main results

* `BpEncoder.read_offset` — the offset reported by `read`.
* `PgmSender.inv_of_run` — every packet sent has the position of its first
  header, or 0xFFFF.
-/

namespace ZeroMQ

open ZeroMQ.Lib

/-! ## Message headers in a stretch of the stream -/

/-- Where message number `i` begins in the encoding of `msgs`. -/
def startOf (msgs : List Message) (i : Nat) : Nat :=
  (bpEncode (msgs.take i)).length

/-- `offset` is the position, counted from `a`, of the first of the headers of
`msgs` that begin in the `n` bytes from `a` on. -/
def FirstHeader (msgs : List Message) (a n : Nat) : Option Nat → Prop
  | none => ∀ i < msgs.length, a ≤ startOf msgs i → a + n ≤ startOf msgs i
  | some p => p < n ∧ (∃ i < msgs.length, startOf msgs i = a + p) ∧
      ∀ i < msgs.length, a ≤ startOf msgs i → a + p ≤ startOf msgs i

variable {msgs ms : List Message} {i j a n : Nat} {o : Option Nat}

theorem bpFrame_length_pos (m : Message) : 0 < (bpFrame m).length := by
  rw [bpFrame, List.length_append]
  have := List.length_pos_iff.mpr (bpHeader_ne_nil m.length)
  omega

theorem startOf_append_left (h : i ≤ msgs.length) :
    startOf (msgs ++ ms) i = startOf msgs i := by
  rw [startOf, startOf, List.take_append_of_le_length h]

theorem startOf_length : startOf msgs msgs.length = (bpEncode msgs).length := by
  rw [startOf, List.take_length]

theorem startOf_mono (h : i ≤ j) : startOf msgs i ≤ startOf msgs j := by
  obtain ⟨k, rfl⟩ := Nat.le.dest h
  rw [startOf, startOf, List.take_add, bpEncode_append, List.length_append]
  omega

theorem startOf_succ (h : i < msgs.length) :
    startOf msgs (i + 1) = startOf msgs i + (bpFrame msgs[i]).length := by
  rw [startOf, startOf, List.take_succ_eq_append_getElem h, bpEncode_append,
    List.length_append]
  simp

theorem startOf_append_ge (h : msgs.length ≤ i) :
    (bpEncode msgs).length ≤ startOf (msgs ++ ms) i := by
  calc (bpEncode msgs).length = startOf (msgs ++ ms) msgs.length := by
        rw [startOf_append_left (Nat.le_refl _), startOf_length]
    _ ≤ startOf (msgs ++ ms) i := startOf_mono h

theorem FirstHeader.append (h : FirstHeader msgs a n o)
    (hlen : a + n ≤ (bpEncode msgs).length) :
    FirstHeader (msgs ++ ms) a n o := by
  -- A message of `ms` begins after the stretch.
  have hlater : ∀ i, msgs.length ≤ i → a + n ≤ startOf (msgs ++ ms) i :=
    fun i hi => Nat.le_trans hlen (startOf_append_ge hi)
  cases o with
  | none =>
      intro i hi ha
      by_cases hlt : i < msgs.length
      · rw [startOf_append_left (Nat.le_of_lt hlt)] at ha ⊢
        exact h i hlt ha
      · exact hlater i (by omega)
  | some p =>
      obtain ⟨hp, ⟨i, hi, hstart⟩, hfirst⟩ := h
      refine ⟨hp, ⟨i, by simp; omega, ?_⟩, ?_⟩
      · rw [startOf_append_left (Nat.le_of_lt hi), hstart]
      · intro j hj ha
        by_cases hlt : j < msgs.length
        · rw [startOf_append_left (Nat.le_of_lt hlt)] at ha ⊢
          exact hfirst j hlt ha
        · have := hlater j (by omega)
          omega

/-! ## The offset reported by the encoder -/

namespace BpEncoder

variable {μ : Type} [Mux μ]

/-- Before its first message an encoder has the flag `beginning` set, with
nothing to begin; otherwise an encoder at the end of a message has cleared
it. -/
def Settled (e : BpEncoder μ) : Prop :=
  e.next = .messageReady → e.beginning = true →
    e.data = [] ∧ e.derived.pulled = []

/-- In the middle of `read`: since `e₀` the messages `ms` were pulled and `out`
was put into a buffer of `size` bytes. -/
structure Reading (size : Nat) (e₀ e : BpEncoder μ) (out : List UInt8)
    (offset : Option Nat) (ms : List Message) : Prop where
  pulled : e.derived.pulled = e₀.derived.pulled ++ ms
  bytes : pending e₀ ++ bpEncode ms = out ++ pending e
  offsetEq : offset = if ms = [] then none else some (pending e₀).length
  settled : e.Settled
  /-- The last message pulled has begun, or its header is about to be
  copied. -/
  begun : ms ≠ [] →
    (pending e₀ ++ bpEncode ms.dropLast).length < out.length ∨
      (e.data ≠ [] ∧ out.length < size ∧
        (pending e₀ ++ bpEncode ms.dropLast).length ≤ out.length)

variable {e₀ e : BpEncoder μ} {size : Nat} {out : List UInt8}
  {offset : Option Nat}

omit [Mux μ] in
theorem Reading.copy (h : Reading size e₀ e out offset ms) (hn : 0 < n) :
    Reading size e₀ { e with data := e.data.drop n } (out ++ e.data.take n)
      offset ms where
  pulled := h.pulled
  bytes := by rw [h.bytes, pending_copy e n, List.append_assoc]
  offsetEq := h.offsetEq
  settled := by
    intro hnext hbeg
    obtain ⟨hdata, hnil⟩ := h.settled hnext hbeg
    exact ⟨by simp [hdata], hnil⟩
  begun := by
    intro hms
    left
    have hlen : (out ++ e.data.take n).length =
        out.length + min n e.data.length := by
      rw [List.length_append, List.length_take]
    rw [hlen]
    rcases h.begun hms with hlt | ⟨hdata, _, hle⟩
    · exact Nat.lt_of_lt_of_le hlt (Nat.le_add_right _ _)
    · have := List.length_pos_iff.mpr hdata
      omega

/-- An action of the encoder, and what `read` makes of the flag it leaves. -/
theorem Reading.step {st : EncoderStep BpEncoderState} {d : BpEncoderData μ}
    (h : Reading size e₀ e out offset ms) (hdata : e.data = [])
    (hroom : out.length < size)
    (hact : action e.next e.derived = (some st, d)) :
    ∃ ms', Reading size e₀
      (Encoder.mark (Encoder.nextStep st d) out.length offset).1 out
      (Encoder.mark (Encoder.nextStep st d) out.length offset).2 ms' := by
  cases hnext : e.next with
  | sizeReady =>
      -- The body follows the header; it does not begin a message.
      rw [hnext] at hact
      cases hact
      refine ⟨ms, h.pulled, ?_, h.offsetEq, ?_, ?_⟩
      · rw [h.bytes]
        simp [pending, Encoder.mark, Encoder.nextStep, hnext, hdata]
      · intro _ hbeg
        simp [Encoder.mark, Encoder.nextStep] at hbeg
      · intro hms
        rcases h.begun hms with hlt | ⟨hne, _⟩
        · exact .inl hlt
        · exact (hne hdata).elim
  | messageReady =>
      rw [hnext] at hact
      simp only [action] at hact
      split at hact
      · cases hact
      · next message mux hread =>
          cases hact
          -- All earlier messages have left the encoder.
          have hout : pending e₀ ++ bpEncode ms = out := by
            rw [h.bytes]
            simp [pending, hnext, hdata]
          refine ⟨ms ++ [message], ?_, ?_, ?_, ?_, ?_⟩
          · simp [Encoder.nextStep, h.pulled]
          · rw [bpEncode_append, ← List.append_assoc, hout]
            simp [pending, Encoder.nextStep, bpFrame]
          · have hoff := h.offsetEq
            by_cases hms : ms = []
            · subst hms
              simp only [if_true] at hoff
              subst hoff
              rw [bpEncode_nil, List.append_nil] at hout
              simp [Encoder.mark, Encoder.nextStep, hout]
            · rw [if_neg hms] at hoff
              subst hoff
              simp [Encoder.mark, Encoder.nextStep]
          · intro hready
            simp [Encoder.nextStep] at hready
          · intro _
            right
            rw [List.dropLast_concat, hout]
            refine ⟨?_, hroom, Nat.le_refl _⟩
            simpa [Encoder.nextStep] using bpHeader_ne_nil message.length

/-- What is known when `read` returns. -/
structure ReadOffset (e₀ e : BpEncoder μ) (out : List UInt8)
    (offset : Option Nat) (ms : List Message) : Prop where
  pulled : e.derived.pulled = e₀.derived.pulled ++ ms
  bytes : pending e₀ ++ bpEncode ms = out ++ pending e
  settled : e.Settled
  offsetEq : out ≠ [] →
    offset = if ms = [] then none else some (pending e₀).length
  begun : ms ≠ [] → (pending e₀ ++ bpEncode ms.dropLast).length < out.length

/-- The mux has no message.  The flag of an encoder that never had one is
taken for a beginning, but then nothing has been put into the buffer. -/
theorem Reading.stop {d : BpEncoderData μ}
    (h : Reading size e₀ e out offset ms)
    (hfresh : e₀.derived.pulled = [] → pending e₀ = []) (hdata : e.data = [])
    (hact : action e.next e.derived = (none, d)) :
    ReadOffset e₀
      (Encoder.mark { e with derived := d } out.length offset).1 out
      (Encoder.mark { e with derived := d } out.length offset).2 ms := by
  have hnext : e.next = .messageReady := by
    cases hnext : e.next with
    | sizeReady =>
        rw [hnext] at hact
        cases hact
    | messageReady => rfl
  have hpulled : d.pulled = e.derived.pulled := by
    rw [hnext] at hact
    simp only [action] at hact
    split at hact
    · cases hact
      rfl
    · cases hact
  have hbytes : pending e₀ ++ bpEncode ms = out := by
    rw [h.bytes]
    simp [pending, hnext, hdata]
  refine ⟨?_, ?_, ?_, ?_, ?_⟩
  · simp [hpulled, h.pulled]
  · rw [hbytes]
    simp [pending, hnext, hdata]
  · intro _ hbeg
    have hbeg' : e.beginning = true := by
      simp only [Encoder.mark] at hbeg
      split at hbeg
      · cases hbeg
      · exact hbeg
    simpa [hpulled] using h.settled hnext hbeg'
  · intro hout
    simp only [Encoder.mark]
    split
    · next hb =>
        obtain ⟨_, hnil⟩ := h.settled hnext hb.1
        rw [h.pulled, List.append_eq_nil_iff] at hnil
        rw [hfresh hnil.1, hnil.2] at hbytes
        exact (hout hbytes.symm).elim
    · exact h.offsetEq
  · intro hms
    rcases h.begun hms with hlt | ⟨hne, _⟩
    · exact hlt
    · exact (hne hdata).elim

theorem Reading.readLoop
    (hfresh : e₀.derived.pulled = [] → pending e₀ = [])
    (h : ∃ ms, Reading size e₀ e out offset ms) :
    ∃ ms, ReadOffset e₀ (Encoder.readLoop fsm size e out offset).1
      (Encoder.readLoop fsm size e out offset).2.1
      (Encoder.readLoop fsm size e out offset).2.2 ms := by
  fun_induction Encoder.readLoop fsm size e out offset with
  | case1 e out offset hsize hdata derived hact marked =>
      obtain ⟨ms, hread⟩ := h
      exact ⟨ms, hread.stop hfresh hdata hact⟩
  | case2 e out offset hsize hdata st derived hact marked ih =>
      obtain ⟨ms, hread⟩ := h
      exact ih (hread.step hdata hsize hact)
  | case3 e out offset hsize hdata toCopy ih =>
      obtain ⟨ms, hread⟩ := h
      have := List.length_pos_iff.mpr hdata
      exact ih ⟨ms, hread.copy (by omega)⟩
  | case4 e out offset hsize =>
      obtain ⟨ms, hread⟩ := h
      refine ⟨ms, hread.pulled, hread.bytes, hread.settled,
        fun _ => hread.offsetEq, ?_⟩
      intro hms
      rcases hread.begun hms with hlt | ⟨_, hlt, _⟩
      · exact hlt
      · exact (hsize hlt).elim

/-- What `read` reports: the first message pulled begins after what was inside
the encoder, and each of them has at least its first byte in the buffer. -/
theorem read_offset (e : BpEncoder μ) (size : Nat) (hsettled : e.Settled)
    (hfresh : e.derived.pulled = [] → pending e = []) :
    ∃ ms, ReadOffset e (e.read size).1 (e.read size).2.1
      (e.read size).2.2 ms :=
  Reading.readLoop hfresh ⟨[],
    { pulled := (List.append_nil _).symm
      bytes := by simp
      offsetEq := rfl
      settled := hsettled
      begun := fun h => (h rfl).elim }⟩

end BpEncoder

/-! ## `bp_pgm_sender_t` -/

/-- The members of `bp_pgm_sender_t`.  `outBuffer` tells whether there is a
buffer; `payload` is what it holds after its first two bytes.  -1 in
`first_message_offset` is `none`.  `packets` is what the socket has taken. -/
structure PgmSender (μ : Type) where
  encoder : BpEncoder μ
  outBuffer : Bool
  outBufferSize : Nat
  payload : List UInt8
  writeSize : Nat
  writePos : Nat
  firstMessageOffset : Option Nat
  packets : List (List UInt8)
  deriving DecidableEq, Repr

/-- A call of `out_event`, with what the PGM socket has in store: the size of
the next buffer, and whether it takes a packet (the rate limit may forbid
it). -/
structure PgmOut where
  bufferSize : Nat
  sent : Bool
  deriving DecidableEq, Repr

/-- `(uint16_t) first_message_offset`. -/
def offsetField : Option Nat → UInt16
  | none => 0xffff
  | some p => UInt16.ofNat p

namespace PgmSender

variable {μ : Type} [Mux μ]

/-- The constructor. -/
def create (mux : μ) : PgmSender μ :=
  { encoder := BpEncoder.create mux, outBuffer := false, outBufferSize := 0,
    payload := [], writeSize := 0, writePos := 0, firstMessageOffset := none,
    packets := [] }

/-- The buffer at hand, or a new one from `pgm_socket_t::get_buffer`. -/
def getBuffer (s : PgmSender μ) (bufferSize : Nat) : Nat :=
  if s.outBuffer then s.outBufferSize else bufferSize

/-- `out_event` gets new data from the encoder into a buffer of `size`
bytes. -/
def readData (s : PgmSender μ) (size : Nat) : PgmSender μ :=
  let (encoder, payload, offset) := s.encoder.read (size - 2)
  { s with
    encoder := encoder
    outBuffer := true
    outBufferSize := size
    payload := payload
    writeSize := if payload.length = 0 then 0 else payload.length + 2
    writePos := 0
    firstMessageOffset := offset }

/-- `out_event` sends the buffer, `write_one_pkt_with_offset` having put the
offset into its first two bytes. -/
def sendData (s : PgmSender μ) (sent : Bool) : PgmSender μ :=
  if s.writePos < s.writeSize ∧ sent then
    { s with
      outBuffer := false
      writePos := s.writeSize
      packets := s.packets ++
        [putUint16 (offsetField s.firstMessageOffset) ++
          s.payload.drop s.writePos] }
  else s

/-- `out_event`; a buffer of no bytes fails the assertion. -/
def outEvent (s : PgmSender μ) (out : PgmOut) : Option (PgmSender μ) :=
  if s.writePos = s.writeSize then
    if s.getBuffer out.bufferSize = 0 then none
    else some ((s.readData (s.getBuffer out.bufferSize)).sendData out.sent)
  else some (s.sendData out.sent)

/-- The messages taken from the mux so far. -/
def pulled (s : PgmSender μ) : List Message := s.encoder.derived.pulled

/-- A packet has room for 1 to 65534 bytes after its offset. -/
def Capacity (_ : PgmSender μ) (out : PgmOut) : Prop :=
  3 ≤ out.bufferSize ∧ out.bufferSize ≤ 65536
  deriving Decidable

end PgmSender

/-- What the packets carry, without their offsets. -/
def payloads (packets : List (List UInt8)) : List UInt8 :=
  packets.flatMap fun p => p.drop 2

/-- Where packet number `k` begins in the stream. -/
def packetPos (packets : List (List UInt8)) (k : Nat) : Nat :=
  (payloads (packets.take k)).length

/-- A packet that lies at `a` in the stream of `msgs`: not empty, with the
position of its first header, or 0xFFFF. -/
def PacketAt (msgs : List Message) (a : Nat) (p : List UInt8) : Prop :=
  ∃ o, p = putUint16 (offsetField o) ++ p.drop 2 ∧ p.drop 2 ≠ [] ∧
    (∀ n, o = some n → n < 65535) ∧ FirstHeader msgs a (p.drop 2).length o

theorem packetPos_le {packets : List (List UInt8)} {k : Nat} {p : List UInt8}
    (h : packets[k]? = some p) :
    packetPos packets k + (p.drop 2).length ≤ (payloads packets).length := by
  obtain ⟨hk, rfl⟩ := List.getElem?_eq_some_iff.mp h
  have hrest : payloads (packets.drop k) =
      packets[k].drop 2 ++ payloads (packets.drop (k + 1)) := by
    rw [List.drop_eq_getElem_cons hk]
    rfl
  have hsplit : payloads packets =
      payloads (packets.take k) ++ payloads (packets.drop k) := by
    rw [payloads, payloads, payloads, ← List.flatMap_append,
      List.take_append_drop]
  rw [hsplit, hrest, packetPos, List.length_append, List.length_append]
  omega

theorem PacketAt.append {p : List UInt8}
    (h : PacketAt msgs a p)
    (hle : a + (p.drop 2).length ≤ (bpEncode msgs).length) :
    PacketAt (msgs ++ ms) a p := by
  obtain ⟨o, hp, hne, hsmall, hfirst⟩ := h
  exact ⟨o, hp, hne, hsmall, hfirst.append hle⟩

namespace PgmSender

variable {μ : Type} [Mux μ] {s s' : PgmSender μ}

/-- What is in the buffer and has not been sent. -/
def unsent (s : PgmSender μ) : List UInt8 :=
  if s.writePos < s.writeSize then s.payload else []

/-- The packets, the buffer and what is inside the encoder make up the stream,
and every message taken from the mux has begun before the latter. -/
structure Inv (s : PgmSender μ) : Prop where
  stream : payloads s.packets ++ s.unsent ++ BpEncoder.pending s.encoder =
    bpEncode s.pulled
  settled : s.encoder.Settled
  begun : ∀ i < s.pulled.length,
    startOf s.pulled i < (payloads s.packets ++ s.unsent).length
  packet : ∀ k p, s.packets[k]? = some p →
    PacketAt s.pulled (packetPos s.packets k) p
  buffer : s.outBuffer = true →
    3 ≤ s.outBufferSize ∧ s.outBufferSize ≤ 65536
  cursor : s.writePos ≤ s.writeSize
  waiting : s.writePos < s.writeSize → s.writePos = 0 ∧ s.payload ≠ [] ∧
    s.payload.length ≤ 65534 ∧
    FirstHeader s.pulled (payloads s.packets).length s.payload.length
      s.firstMessageOffset

omit [Mux μ] in
theorem Inv.create (mux : μ) : Inv (create mux) where
  stream := rfl
  settled := fun _ _ => ⟨rfl, rfl⟩
  begun := by simp [pulled, PgmSender.create, BpEncoder.create]
  packet := by simp [PgmSender.create]
  buffer := by simp [PgmSender.create]
  cursor := Nat.le_refl _
  waiting := by simp [PgmSender.create]

variable {out : PgmOut}

omit [Mux μ] in
/-- The stretch read into an empty buffer: its first header is that of the
first message pulled. -/
theorem firstHeader_of_readOffset {e₀ e : BpEncoder μ} {payload : List UInt8}
    {offset : Option Nat} {ms : List Message} {a : Nat}
    (h : BpEncoder.ReadOffset e₀ e payload offset ms) (hne : payload ≠ [])
    (hstream : a + (BpEncoder.pending e₀).length =
      (bpEncode e₀.derived.pulled).length)
    (hbegun : ∀ i < e₀.derived.pulled.length, startOf e₀.derived.pulled i < a) :
    FirstHeader e.derived.pulled a payload.length offset := by
  rw [h.pulled, h.offsetEq hne]
  -- The messages pulled before begin before the stretch.
  have hold : ∀ i, a ≤ startOf (e₀.derived.pulled ++ ms) i →
      e₀.derived.pulled.length ≤ i := by
    intro i ha
    by_contra hlt
    rw [startOf_append_left (by omega)] at ha
    have := hbegun i (by omega)
    omega
  split
  · next hms =>
      subst hms
      intro i hi ha
      have := hold i ha
      simp only [List.append_nil] at hi
      omega
  · next hms =>
      have hlt := h.begun hms
      rw [List.length_append] at hlt
      refine ⟨by omega, ⟨e₀.derived.pulled.length, ?_, ?_⟩, ?_⟩
      · have := List.length_pos_iff.mpr hms
        rw [List.length_append]
        omega
      · rw [startOf_append_left (Nat.le_refl _), startOf_length, hstream]
      · intro i _ ha
        rw [hstream]
        exact startOf_append_ge (hold i ha)

omit [Mux μ] in
/-- Every message pulled by then begins before the end of the stretch. -/
theorem begun_of_readOffset {e₀ e : BpEncoder μ} {payload : List UInt8}
    {offset : Option Nat} {ms : List Message} {a i : Nat}
    (h : BpEncoder.ReadOffset e₀ e payload offset ms)
    (hstream : a + (BpEncoder.pending e₀).length =
      (bpEncode e₀.derived.pulled).length)
    (hbegun : ∀ i < e₀.derived.pulled.length, startOf e₀.derived.pulled i < a)
    (hi : i < e.derived.pulled.length) :
    startOf e.derived.pulled i < a + payload.length := by
  rw [h.pulled] at hi ⊢
  by_cases hold : i < e₀.derived.pulled.length
  · rw [startOf_append_left (Nat.le_of_lt hold)]
    have := hbegun i hold
    omega
  · have hms : ms ≠ [] := by
      rintro rfl
      simp only [List.append_nil] at hi
      exact hold hi
    have hle : startOf (e₀.derived.pulled ++ ms) i ≤
        (bpEncode (e₀.derived.pulled ++ ms.dropLast)).length := by
      rw [List.length_append] at hi
      calc startOf (e₀.derived.pulled ++ ms) i
          ≤ startOf (e₀.derived.pulled ++ ms)
              (e₀.derived.pulled.length + (ms.length - 1)) :=
            startOf_mono (by omega)
        _ = (bpEncode (e₀.derived.pulled ++ ms.dropLast)).length := by
            rw [startOf, List.take_length_add_append, List.dropLast_eq_take]
    have hlt := h.begun hms
    rw [bpEncode_append, List.length_append] at hle
    rw [List.length_append] at hlt
    omega

theorem unsent_readData {size : Nat} :
    (s.readData size).unsent = (s.encoder.read (size - 2)).2.1 := by
  by_cases hnil : (s.encoder.read (size - 2)).2.1 = []
  · simp [unsent, readData, hnil]
  · simp [unsent, readData, List.length_eq_zero_iff, hnil]

theorem Inv.readData {size : Nat} (h : Inv s)
    (hsize : 3 ≤ size ∧ size ≤ 65536) (hpos : s.writePos = s.writeSize) :
    Inv (s.readData size) := by
  have hunsent : s.unsent = [] := by simp [unsent, hpos]
  have hstream := h.stream
  rw [hunsent, List.append_nil] at hstream
  have hbegun := h.begun
  rw [hunsent, List.append_nil] at hbegun
  have hfresh : s.pulled = [] → BpEncoder.pending s.encoder = [] := by
    intro hnil
    rw [hnil, bpEncode_nil] at hstream
    exact (List.append_eq_nil_iff.mp hstream).2
  have hlen : (payloads s.packets).length +
      (BpEncoder.pending s.encoder).length = (bpEncode s.pulled).length := by
    rw [← hstream, List.length_append]
  obtain ⟨ms, hread⟩ := s.encoder.read_offset (size - 2) h.settled hfresh
  constructor
  case stream =>
    rw [unsent_readData]
    change _ ++ BpEncoder.pending (s.encoder.read (size - 2)).1 =
      bpEncode (s.encoder.read (size - 2)).1.derived.pulled
    rw [hread.pulled, bpEncode_append, List.append_assoc, ← hread.bytes,
      ← List.append_assoc]
    exact congrArg (· ++ bpEncode ms) hstream
  case settled => exact hread.settled
  case begun =>
    intro i hi
    rw [unsent_readData, List.length_append]
    exact begun_of_readOffset hread hlen hbegun hi
  case packet =>
    intro k p hp
    have hle := packetPos_le hp
    have hsame : (s.readData size).packets = s.packets := rfl
    have hpulled : (s.readData size).pulled = s.pulled ++ ms := hread.pulled
    rw [hsame] at hp hle ⊢
    rw [hpulled]
    exact (h.packet k p hp).append (by omega)
  case buffer => exact fun _ => hsize
  case cursor => exact Nat.zero_le _
  case waiting =>
    intro hlt
    have hne : (s.encoder.read (size - 2)).2.1 ≠ [] := by
      intro hnil
      simp [PgmSender.readData, hnil] at hlt
    have hout := s.encoder.read_length_le (size - 2)
    exact ⟨rfl, hne, Nat.le_trans hout (by omega),
      firstHeader_of_readOffset hread hne hlen hbegun⟩

omit [Mux μ] in
theorem Inv.sendData {sent : Bool} (h : Inv s) : Inv (s.sendData sent) := by
  unfold PgmSender.sendData
  split
  · next hsend =>
      obtain ⟨hzero, hne, hsmall, hfirst⟩ := h.waiting hsend.1
      have hunsent : s.unsent = s.payload := if_pos hsend.1
      have hstream := h.stream
      have hbegun := h.begun
      rw [hunsent] at hstream hbegun
      have hpay : payloads (s.packets ++
          [putUint16 (offsetField s.firstMessageOffset) ++
            s.payload.drop s.writePos]) =
          payloads s.packets ++ s.payload := by
        simp [payloads, hzero, putUint16]
      constructor
      case stream => simpa [unsent, pulled, hpay] using hstream
      case settled => exact h.settled
      case begun => simpa [unsent, pulled, hpay] using hbegun
      case packet =>
        intro k p hp
        rcases Nat.lt_or_ge k s.packets.length with hk | hk
        · rw [List.getElem?_append_left hk] at hp
          rw [packetPos, List.take_append_of_le_length (Nat.le_of_lt hk)]
          exact h.packet k p hp
        · rw [List.getElem?_append_right hk, List.getElem?_singleton] at hp
          split at hp
          · next hk0 =>
              have hlast : k = s.packets.length := by omega
              subst hlast
              cases hp
              refine ⟨s.firstMessageOffset, ?_, ?_, ?_, ?_⟩
              · simp [putUint16]
              · simpa [putUint16, hzero] using hne
              · intro n hn
                rw [hn] at hfirst
                have := hfirst.1
                omega
              · simpa [pulled, packetPos, putUint16, hzero] using hfirst
          · cases hp
      case buffer => exact fun hb => absurd hb (by simp)
      case cursor => exact Nat.le_refl _
      case waiting => exact fun hlt => (Nat.lt_irrefl _ hlt).elim
  · exact h

theorem Inv.outEvent (h : Inv s) (hcap : s.Capacity out)
    (hstep : s.outEvent out = some s') : Inv s' := by
  unfold PgmSender.outEvent at hstep
  split at hstep
  · next hpos =>
      split at hstep
      · cases hstep
      · cases hstep
        have hsize : 3 ≤ s.getBuffer out.bufferSize ∧
            s.getBuffer out.bufferSize ≤ 65536 := by
          unfold getBuffer
          split
          · exact h.buffer (by assumption)
          · exact hcap
        exact (h.readData hsize hpos).sendData
  · cases hstep
    exact h.sendData

/-- Every state a sender can be in, for buffers of any sizes. -/
theorem inv_of_run {mux : μ} {outs : List PgmOut}
    (hrun : Run outEvent Capacity (create mux) outs s) : Inv s :=
  hrun.invariant (fun _ _ _ h hcap hstep => h.outEvent hcap hstep)
    (.create mux)

end PgmSender

end ZeroMQ
