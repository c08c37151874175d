import Mathlib.Algebra.Ring.Nat
import ZeroMQ.Codec.Basic
import ZeroMQ.Codec.Wire

/-!
# The 0MQ backend protocol

`bp_encoder_t` (`libzmq/bp_encoder.cpp`) and `bp_decoder_t`
(`libzmq/bp_decoder.cpp`) as instances of the generic codecs.  A message is
framed by its size: one byte for sizes below 255, the escape 0xff and eight
bytes in network order otherwise.

Messages come from a mux and go to a demux; both are arbitrary here.  The
histories `pulled` and `pushed` record what passed through them.

## Main definitions

* `bpEncode` — the bytes of a list of messages, the abstract meaning of the
  protocol.
* `BpFramed` — the byte strings the decoder takes for a list of messages; sizes
  need not be minimal.

## Main results

* `BpEncoder.read_spec` — what leaves the encoder, with what is still inside
  it, encodes the messages pulled.
* `BpFramed.prefix_of_bpEncode` — an encoding can be parsed in one way only.
-/

namespace ZeroMQ

/-- The body of a message. -/
abbrev Message := List UInt8

/-- `mux_t`, as its owner uses it: `read` gives the next message, if any pipe
has one, `empty` tells whether there is a pipe. -/
class Mux (μ : Type) where
  read : μ → Option Message × μ
  empty : μ → Bool
  initialiseShutdown : μ → μ

/-- `i_demux`: `write` is false when the message was refused. -/
class IDemux (δ : Type) where
  write : δ → Message → Bool × δ
  gap : δ → δ
  flush : δ → δ
  initialiseShutdown : δ → δ

/-- A mux with the given messages in its pipes. -/
instance : Mux (List Message) where
  read
    | [] => (none, [])
    | m :: ms => (some m, ms)
  empty _ := false
  initialiseShutdown ms := ms

/-- A demux without pipes has nobody to refuse a message. -/
instance : IDemux Unit where
  write _ _ := (true, ())
  gap := id
  flush := id
  initialiseShutdown := id

/-- A demux with one pipe that has room for so many messages. -/
instance : IDemux Nat where
  write room _ := if room = 0 then (false, 0) else (true, room - 1)
  gap := id
  flush := id
  initialiseShutdown := id

/-! ## The encoding -/

/-- The size field of a message of `size` bytes. -/
def bpHeader (size : Nat) : List UInt8 :=
  if size < 255 then [UInt8.ofNat size]
  else 0xff :: putUint64 (UInt64.ofNat size)

/-- One message on the wire. -/
def bpFrame (message : Message) : List UInt8 :=
  bpHeader message.length ++ message

/-- A list of messages on the wire. -/
def bpEncode (messages : List Message) : List UInt8 :=
  messages.flatMap bpFrame

theorem bpHeader_ne_nil (size : Nat) : bpHeader size ≠ [] := by
  unfold bpHeader
  split <;> simp

@[simp] theorem bpEncode_nil : bpEncode [] = [] := rfl

@[simp] theorem bpEncode_cons (m : Message) (ms : List Message) :
    bpEncode (m :: ms) = bpFrame m ++ bpEncode ms := rfl

@[simp] theorem bpEncode_append (ms ms' : List Message) :
    bpEncode (ms ++ ms') = bpEncode ms ++ bpEncode ms' :=
  List.flatMap_append

/-! ## `bp_encoder_t` -/

/-- The actions of `bp_encoder_t`. -/
inductive BpEncoderState where
  | sizeReady
  | messageReady
  deriving DecidableEq, Repr

/-- The members of `bp_encoder_t`; `pulled` is the history of its mux. -/
structure BpEncoderData (μ : Type) where
  mux : μ
  message : Message
  pulled : List Message
  deriving DecidableEq, Repr

abbrev BpEncoder (μ : Type) := Encoder BpEncoderState (BpEncoderData μ)

namespace BpEncoder

variable {μ : Type} [Mux μ]

/-- `size_ready` and `message_ready`. -/
def action (st : BpEncoderState) (d : BpEncoderData μ) :
    Option (EncoderStep BpEncoderState) × BpEncoderData μ :=
  match st with
  | .sizeReady =>
      (some { data := d.message, next := .messageReady, beginning := false }, d)
  | .messageReady =>
      match Mux.read d.mux with
      | (none, mux) => (none, { d with mux := mux, message := [] })
      | (some message, mux) =>
          (some
            { data := bpHeader message.length, next := .sizeReady,
              beginning := true },
            { mux := mux, message := message, pulled := d.pulled ++ [message] })

/-- An empty body is followed by a header, and a header is never empty. -/
def fsm : EncoderFsm BpEncoderState (BpEncoderData μ) where
  action := action
  rank
    | .sizeReady => 1
    | .messageReady => 0
  bound := 2
  rank_lt := by
    rintro (_ | _) <;> decide
  progress := by
    intro st d step d' hact hempty
    cases st with
    | sizeReady =>
        cases hact
        exact Nat.zero_lt_one
    | messageReady =>
        simp only [action] at hact
        split at hact
        · cases hact
        · cases hact
          exact (bpHeader_ne_nil _ hempty).elim

/-- The constructor. -/
def create (mux : μ) : BpEncoder μ :=
  { data := [], next := .messageReady, beginning := true,
    derived := { mux := mux, message := [], pulled := [] } }

/-- `reset`: forget the message being encoded. -/
def reset (e : BpEncoder μ) : BpEncoder μ :=
  { data := [], next := .messageReady, beginning := true,
    derived := { e.derived with message := [] } }

/-- `encoder_t::read`. -/
def read (e : BpEncoder μ) (size : Nat) :
    BpEncoder μ × List UInt8 × Option Nat :=
  Encoder.read fsm e size

/-- The bytes of pulled messages that have not left the encoder. -/
def pending (e : BpEncoder μ) : List UInt8 :=
  match e.next with
  | .sizeReady => e.data ++ e.derived.message
  | .messageReady => e.data

omit [Mux μ] in
theorem pending_copy (e : BpEncoder μ) (n : Nat) :
    pending e = e.data.take n ++
      pending { e with data := e.data.drop n } := by
  unfold pending
  cases e.next with
  | sizeReady => simp only [← List.append_assoc, List.take_append_drop]
  | messageReady => simp only [List.take_append_drop]

/-- Since `e` the bytes `out` have left the encoder `e'`: with what is inside
`e'` they are what was inside `e` and the encoding of the messages pulled since
then. -/
def Accounts (e e' : BpEncoder μ) (out : List UInt8) : Prop :=
  ∃ ms, e'.derived.pulled = e.derived.pulled ++ ms ∧
    pending e ++ bpEncode ms = out ++ pending e'

/-- An action of the encoder adds the frame of the message it pulls to what is
inside it. -/
theorem Accounts.step {e e' : BpEncoder μ} {out : List UInt8}
    {step : EncoderStep BpEncoderState} {derived : BpEncoderData μ}
    (h : Accounts e e' out) (hdata : e'.data = [])
    (hact : action e'.next e'.derived = (some step, derived)) :
    Accounts e (Encoder.nextStep step derived) out := by
  obtain ⟨ms, hpulled, hpending⟩ := h
  cases hnext : e'.next with
  | sizeReady =>
      rw [hnext] at hact
      cases hact
      refine ⟨ms, hpulled, ?_⟩
      rw [hpending]
      simp [pending, Encoder.nextStep, hnext, hdata]
  | messageReady =>
      rw [hnext] at hact
      simp only [action] at hact
      split at hact
      · cases hact
      · next message mux hread =>
          cases hact
          refine ⟨ms ++ [message], ?_, ?_⟩
          · simp [Encoder.nextStep, hpulled]
          · rw [bpEncode_append, ← List.append_assoc, hpending]
            simp [pending, Encoder.nextStep, hnext, hdata, bpFrame]

theorem Accounts.stop {e e' : BpEncoder μ} {out : List UInt8}
    {derived : BpEncoderData μ} (h : Accounts e e' out)
    (hact : action e'.next e'.derived = (none, derived)) :
    Accounts e { e' with derived := derived } out := by
  obtain ⟨ms, hpulled, hpending⟩ := h
  cases hnext : e'.next with
  | sizeReady =>
      rw [hnext] at hact
      cases hact
  | messageReady =>
      rw [hnext] at hact
      simp only [action] at hact
      split at hact
      · cases hact
        refine ⟨ms, hpulled, ?_⟩
        simpa [pending, hnext] using hpending
      · cases hact

theorem read_spec (e : BpEncoder μ) (size : Nat) :
    Accounts e (e.read size).1 (e.read size).2.1 := by
  apply Encoder.readLoop_invariant (I := Accounts e)
  · rintro e' out n ⟨ms, hpulled, hpending⟩
    refine ⟨ms, hpulled, ?_⟩
    rw [hpending, pending_copy e' n, List.append_assoc]
  · exact fun e' out b h => h
  · exact fun e' out step derived h hdata hact => h.step hdata hact
  · exact fun e' out derived h hdata hact => h.stop hact
  · exact ⟨[], by simp, by simp⟩

/-- `read` leaves room in the buffer only when the mux has no message left and
nothing is inside the encoder. -/
theorem read_short (e : BpEncoder μ) (size : Nat)
    (h : (e.read size).2.1.length < size) :
    pending (e.read size).1 = [] ∧
      ∃ mux, Mux.read mux = (none, (e.read size).1.derived.mux) := by
  obtain ⟨hdata, d, hact⟩ := Encoder.readLoop_short e [] none h
  change (e.read size).1.data = [] at hdata
  change action (e.read size).1.next d =
    (none, (e.read size).1.derived) at hact
  cases hnext : (e.read size).1.next with
  | sizeReady =>
      rw [hnext] at hact
      cases hact
  | messageReady =>
      rw [hnext] at hact
      simp only [action] at hact
      split at hact
      · next mux hread =>
          refine ⟨by simp [pending, hnext, hdata], d.mux, ?_⟩
          rw [hread, ← (Prod.mk.inj hact).2]
      · cases hact

theorem read_length_le (e : BpEncoder μ) (size : Nat) :
    (e.read size).2.1.length ≤ size :=
  Encoder.readLoop_length_le e [] none (Nat.zero_le _)

end BpEncoder

/-! ## `bp_decoder_t` -/

/-- The actions of `bp_decoder_t`. -/
inductive BpDecoderState where
  | oneByteSizeReady
  | eightByteSizeReady
  | messageReady
  deriving DecidableEq, Repr

/-- The members of `bp_decoder_t` (`tmpbuf` and `message` are the buffer being
filled); `pushed` is the history of its demux. -/
structure BpDecoderData (δ : Type) where
  demux : δ
  pushed : List Message
  deriving DecidableEq, Repr

abbrev BpDecoder (δ : Type) := Decoder BpDecoderState (BpDecoderData δ)

namespace BpDecoder

variable {δ : Type} [IDemux δ]

/-- `one_byte_size_ready`, `eight_byte_size_ready` and `message_ready`. -/
def action (st : BpDecoderState) (buf : List UInt8) (d : BpDecoderData δ) :
    Option (Nat × BpDecoderState) × BpDecoderData δ :=
  match st with
  | .oneByteSizeReady =>
      if buf.headD 0 = 0xff then (some (8, .eightByteSizeReady), d)
      else (some ((buf.headD 0).toNat, .messageReady), d)
  | .eightByteSizeReady => (some ((getUint64 buf).toNat, .messageReady), d)
  | .messageReady =>
      match IDemux.write d.demux buf with
      | (false, demux) => (none, { d with demux := demux })
      | (true, demux) =>
          (some (1, .oneByteSizeReady),
            { demux := demux, pushed := d.pushed ++ [buf] })

/-- Only the body of a message can be empty. -/
def fsm : DecoderFsm BpDecoderState (BpDecoderData δ) where
  action := action
  rank
    | .messageReady => 0
    | _ => 1
  progress := by
    intro st buf d st' d' hact
    cases st with
    | oneByteSizeReady =>
        simp only [action] at hact
        split at hact
        · cases hact
        · simp only [Prod.mk.injEq, Option.some.injEq] at hact
          rw [← hact.1.2]
          exact Nat.zero_lt_one
    | eightByteSizeReady =>
        simp only [action, Prod.mk.injEq, Option.some.injEq] at hact
        rw [← hact.1.2]
        exact Nat.zero_lt_one
    | messageReady =>
        simp only [action] at hact
        split at hact <;> cases hact

/-- Only `message_ready` returns false, when the message was refused. -/
theorem action_eq_none {st : BpDecoderState} {buf : List UInt8}
    {d d' : BpDecoderData δ} (h : action st buf d = (none, d')) :
    st = .messageReady ∧ (IDemux.write d.demux buf).1 = false ∧
      d'.pushed = d.pushed := by
  unfold action at h
  split at h
  · split at h <;> cases h
  · cases h
  · split at h
    · next hwrite =>
        cases h
        exact ⟨rfl, by rw [hwrite], rfl⟩
    · cases h

/-- The constructor. -/
def create (demux : δ) : BpDecoder δ :=
  { buf := [], toRead := 1, next := .oneByteSizeReady,
    derived := { demux := demux, pushed := [] } }

/-- `reset`: forget the message being decoded. -/
def reset (d : BpDecoder δ) : BpDecoder δ :=
  { buf := [], toRead := 1, next := .oneByteSizeReady, derived := d.derived }

/-- `decoder_t::write`. -/
def write (d : BpDecoder δ) (data : List UInt8) : BpDecoder δ × Nat :=
  Decoder.write fsm d data

/-- The decoder is where the constructor and `reset` leave it. -/
def Initial (d : BpDecoder δ) : Prop :=
  d.buf = [] ∧ d.toRead = 1 ∧ d.next = .oneByteSizeReady

end BpDecoder

/-! ## Parsing -/

/-- The byte strings the decoder takes for a size. -/
inductive BpSize : List UInt8 → Nat → Prop where
  | short (b : UInt8) (hb : b ≠ 0xff) : BpSize [b] b.toNat
  | long (bytes : List UInt8) (hlen : bytes.length = 8) :
      BpSize (0xff :: bytes) (getUint64 bytes).toNat

/-- The byte strings the decoder takes for a list of messages. -/
inductive BpFramed : List UInt8 → List Message → Prop where
  | nil : BpFramed [] []
  | snoc {bytes header : List UInt8} {ms : List Message} {m : Message}
      (h : BpFramed bytes ms) (hsize : BpSize header m.length) :
      BpFramed (bytes ++ (header ++ m)) (ms ++ [m])

theorem BpSize.ne_nil {header : List UInt8} {n : Nat} (h : BpSize header n) :
    header ≠ [] := by
  intro hnil
  cases h <;> simp at hnil

theorem BpSize.of_bpHeader {size : Nat} (hsize : size < 2 ^ 64) :
    BpSize (bpHeader size) size := by
  unfold bpHeader
  split
  · next hlt =>
      have hto : (UInt8.ofNat size).toNat = size := by
        rw [UInt8.toNat_ofNat']
        omega
      have hne : UInt8.ofNat size ≠ 0xff := by
        intro he
        have h255 : (UInt8.ofNat size).toNat = 255 := by rw [he]; rfl
        omega
      have h := BpSize.short (UInt8.ofNat size) hne
      rwa [hto] at h
  · have h := BpSize.long (putUint64 (UInt64.ofNat size)) rfl
    rw [getUint64_putUint64, UInt64.toNat_ofNat', Nat.mod_eq_of_lt hsize] at h
    exact h

/-- A size field is known by its first byte: two of them that start one byte
string are equal. -/
theorem BpSize.unique {h h' : List UInt8} {n n' : Nat} (hs : BpSize h n)
    (hs' : BpSize h' n') {x y : List UInt8} (he : h ++ x <+: h' ++ y) :
    h = h' ∧ n = n' := by
  cases hs with
  | short b hb =>
      cases hs' with
      | short b' hb' =>
          have hbb : b = b' := by simpa using (List.cons_prefix_cons.mp he).1
          subst hbb
          exact ⟨rfl, rfl⟩
      | long bytes hlen =>
          exact (hb (List.cons_prefix_cons.mp he).1).elim
  | long bytes hlen =>
      cases hs' with
      | short b' hb' =>
          exact (hb' (List.cons_prefix_cons.mp he).1.symm).elim
      | long bytes' hlen' =>
          have hpre := (List.cons_prefix_cons.mp he).2
          have heq : bytes = bytes' := by
            have hle : bytes <+: bytes' ++ y :=
              (List.prefix_append bytes x).trans hpre
            have hle' := List.prefix_append bytes' y
            have h := List.prefix_of_prefix_length_le hle hle'
              (by omega)
            exact h.eq_of_length (by rw [hlen, hlen'])
          subst heq
          exact ⟨rfl, rfl⟩

/-- Frames at the start of an encoding are the frames of its first messages. -/
theorem BpFramed.prefix_of_bpEncode {bytes : List UInt8}
    {ms msgs : List Message} (h : BpFramed bytes ms)
    (hlen : ∀ m ∈ msgs, m.length < 2 ^ 64)
    (hpre : bytes <+: bpEncode msgs) :
    bytes = bpEncode ms ∧ ms <+: msgs := by
  induction h with
  | nil => exact ⟨rfl, List.nil_prefix⟩
  | @snoc bytes header ms m h hsize ih =>
      obtain ⟨hbytes, rest, hmsgs⟩ :=
        ih ((List.prefix_append _ _).trans hpre)
      subst hbytes hmsgs
      rw [bpEncode_append, List.prefix_append_right_inj] at hpre
      cases rest with
      | nil =>
          have hnil : header ++ m = [] := List.prefix_nil.mp hpre
          exact (hsize.ne_nil (List.append_eq_nil_iff.mp hnil).1).elim
      | cons m0 rest =>
          have hm0 : m0.length < 2 ^ 64 := hlen m0 (by simp)
          rw [bpEncode_cons, bpFrame, List.append_assoc] at hpre
          obtain ⟨hheader, hn⟩ := hsize.unique (.of_bpHeader hm0) hpre
          rw [hheader, List.prefix_append_right_inj] at hpre
          have hm : m = m0 := by
            have h := List.prefix_of_prefix_length_le hpre
              (List.prefix_append m0 _) (Nat.le_of_eq hn)
            exact h.eq_of_length hn
          subst hm
          refine ⟨?_, rest, by simp⟩
          rw [hheader, bpEncode_append, bpEncode_cons, bpEncode_nil,
            List.append_nil, bpFrame]

end ZeroMQ
