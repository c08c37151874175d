import Mathlib.Data.Nat.Find
import ZeroMQ.Pgm.Sender

/-!
# `bp_pgm_receiver_t`

The receiving PGM engine (`libzmq/bp_pgm_receiver.cpp`) joins the stream of
packets where it can: it drops packets without a message header, skips to the
first header of the first packet that has one, and passes everything after it
to the decoder.  When the socket reports a loss, the message in progress is
forgotten, the readers are told about the gap, and the receiver joins again.

`in_event` passes packet after packet to the decoder and does not look at the
number of bytes the decoder has consumed.  That is all of them as long as the
demux does not refuse a message in the middle of a packet.

The PGM transport delivers packets whole and in order.  What happens in a call
of `pgm_socket_t::receive` is up to it, and is given by a `SocketEvent`.

## Main definitions

* `PgmReceiver.inEvent` — the handler; `PgmReceiver.iterate` is one turn of its
  loop, with the end of the call when the loop is left.
* `PgmLink` — a receiver and the transport, which starts at some packet and
  delivers or loses packets.
* `messagesWithin` — the messages that lie inside a stretch of the stream.

## Main results

* `PgmReceiver.inEvent_eq` — `in_event` is made of turns of its loop.
* `PgmLink.Current.packet` — as long as the decoder consumes its packets, it has
  seen the stream from a message header on.
-/

namespace ZeroMQ

open ZeroMQ.Lib

/-! ## The receiver -/

/-- What `pgm_socket_t::receive` returns: a packet, 0 or -1. -/
inductive SocketResult where
  | data (packet : List UInt8)
  | nothing
  | loss
  deriving DecidableEq, Repr

/-- The members of `bp_pgm_receiver_t`.  `gaps` is the history of the gaps
announced to the demux: for each the number of messages pushed before it. -/
structure PgmReceiver (δ : Type) where
  joined : Bool
  decoder : BpDecoder δ
  gaps : List Nat
  deriving DecidableEq, Repr

namespace PgmReceiver

variable {δ : Type} [IDemux δ]

/-- The constructor. -/
def create (demux : δ) : PgmReceiver δ :=
  { joined := false, decoder := BpDecoder.create demux, gaps := [] }

/-- The messages pushed into the demux so far. -/
def pushed (r : PgmReceiver δ) : List Message := r.decoder.derived.pushed

/-- `receive_with_offset`: the new value of `joined`, the number of bytes and
the data. -/
def receiveWithOffset (joined : Bool) :
    SocketResult → Bool × Int × List UInt8
  | .nothing => (joined, 0, [])
  | .data [] => (joined, 0, [])
  | .loss => (joined, -1, [])
  | .data packet =>
      let apduOffset := getUint16 packet
      let data := packet.drop 2
      let nbytes : Int := packet.length - 2
      if apduOffset = 0xffff ∧ joined = false then (joined, 0, [])
      else if joined = false then
        (true, nbytes - apduOffset.toNat, data.drop apduOffset.toNat)
      else (joined, nbytes, data)

/-- `demux->flush ()`. -/
def flush (r : PgmReceiver δ) : PgmReceiver δ :=
  { r with
    decoder.derived.demux := IDemux.flush r.decoder.derived.demux }

/-- A data loss: throw away the message in progress, insert a gap, be no longer
joined. -/
def lose (r : PgmReceiver δ) : PgmReceiver δ :=
  let decoder := r.decoder.reset
  { joined := false
    decoder := { decoder with
      derived.demux := IDemux.gap decoder.derived.demux }
    gaps := r.gaps ++ [r.pushed.length] }

/-- `in_event` after its loop. -/
def finish (r : PgmReceiver δ) (nbytes : Int) : PgmReceiver δ :=
  if nbytes = -1 then r.flush.lose else r.flush

/-- The head and the body of the loop of `in_event`, with the value of
`nbytes`. -/
def receive (r : PgmReceiver δ) (result : SocketResult) :
    PgmReceiver δ × Int :=
  let (joined, nbytes, data) := receiveWithOffset r.joined result
  if 0 < nbytes then
    ({ r with joined := joined, decoder := (r.decoder.write data).1 }, nbytes)
  else ({ r with joined := joined }, nbytes)

/-- `in_event`, with what the socket is going to return (0 after that), and
what of it is left when the loop ends. -/
def inEvent (r : PgmReceiver δ) :
    List SocketResult → PgmReceiver δ × List SocketResult
  | [] => (r.finish 0, [])
  | result :: results =>
      let (r', nbytes) := r.receive result
      if 0 < nbytes then r'.inEvent results else (r'.finish nbytes, results)

/-- One turn of the loop of `in_event`, and the end of the call if it is the
last one. -/
def iterate (r : PgmReceiver δ) (result : SocketResult) : PgmReceiver δ :=
  let (r', nbytes) := r.receive result
  if 0 < nbytes then r' else r'.finish nbytes

/-- A call of `in_event` is made of turns of its loop, the last of them with a
socket that has no more data. -/
theorem inEvent_eq (r : PgmReceiver δ) (results : List SocketResult) :
    ∃ used, used <+: results ++ [.nothing] ∧
      (r.inEvent results).2 = results.drop used.length ∧
      (r.inEvent results).1 = used.foldl iterate r := by
  induction results generalizing r with
  | nil => exact ⟨[.nothing], List.prefix_refl _, rfl, rfl⟩
  | cons result results ih =>
      by_cases hpos : 0 < (r.receive result).2
      · obtain ⟨used, hpre, hrest, hfold⟩ := ih (r.receive result).1
        refine ⟨result :: used, List.cons_prefix_cons.mpr ⟨rfl, hpre⟩, ?_, ?_⟩
        · simp only [inEvent, if_pos hpos, hrest, List.length_cons,
            List.drop_succ_cons]
        · simp only [inEvent, iterate, if_pos hpos, hfold, List.foldl_cons]
      · refine ⟨[result], List.cons_prefix_cons.mpr ⟨rfl, List.nil_prefix⟩,
          ?_, ?_⟩
        · simp only [inEvent, if_neg hpos, List.length_singleton,
            List.drop_succ_cons, List.drop_zero]
        · simp only [inEvent, iterate, if_neg hpos, List.foldl_cons,
            List.foldl_nil]

/-! ### Packets of a sender -/

section Packets

variable {r : PgmReceiver δ} {msgs : List Message} {a q : Nat}
  {p : List UInt8}

theorem receiveWithOffset_packet (joined : Bool) (value : UInt16)
    (data : List UInt8) :
    receiveWithOffset joined (.data (putUint16 value ++ data)) =
      if value = 0xffff ∧ joined = false then (joined, 0, [])
      else if joined = false then
        (true, (data.length : Int) - value.toNat, data.drop value.toNat)
      else (joined, data.length, data) := by
  have hlen : ((putUint16 value ++ data).length : Int) - 2 = data.length := by
    rw [List.length_append]
    simp only [putUint16, List.length_cons, List.length_nil]
    omega
  have heq : receiveWithOffset joined (.data (putUint16 value ++ data)) =
      if getUint16 (putUint16 value ++ data) = 0xffff ∧ joined = false then
        (joined, 0, [])
      else if joined = false then
        (true, ((putUint16 value ++ data).length : Int) - 2 -
          (getUint16 (putUint16 value ++ data)).toNat,
          data.drop (getUint16 (putUint16 value ++ data)).toNat)
      else (joined, ((putUint16 value ++ data).length : Int) - 2, data) := rfl
  rw [heq, hlen, getUint16_append]

theorem iterate_of_pos {result : SocketResult} {joined : Bool} {nbytes : Int}
    {data : List UInt8}
    (h : receiveWithOffset r.joined result = (joined, nbytes, data))
    (hpos : 0 < nbytes) :
    r.iterate result =
      { r with joined := joined, decoder := (r.decoder.write data).1 } := by
  simp only [iterate, receive, h, if_pos hpos]

theorem iterate_joined (h : PacketAt msgs a p) (hjoined : r.joined = true) :
    r.iterate (.data p) =
      { r with joined := true, decoder := (r.decoder.write (p.drop 2)).1 } := by
  obtain ⟨o, hp, hne, _, _⟩ := h
  have hpos := List.length_pos_iff.mpr hne
  have hrecv := receiveWithOffset_packet r.joined (offsetField o) (p.drop 2)
  rw [← hp, hjoined, if_neg (by simp), if_neg (by simp), ← hjoined] at hrecv
  rw [iterate_of_pos hrecv (by omega), hjoined]

/-- A packet without a header while the receiver is not joined, and one with a
header. -/
theorem iterate_waiting (h : PacketAt msgs a p) (hjoined : r.joined = false) :
    (r.iterate (.data p) = r.flush ∧
        FirstHeader msgs a (p.drop 2).length none) ∨
      ∃ q, FirstHeader msgs a (p.drop 2).length (some q) ∧
        r.iterate (.data p) =
          { r with
            joined := true
            decoder := (r.decoder.write ((p.drop 2).drop q)).1 } := by
  obtain ⟨o, hp, hne, hsmall, hfirst⟩ := h
  have hrecv := receiveWithOffset_packet r.joined (offsetField o) (p.drop 2)
  rw [← hp] at hrecv
  cases o with
  | none =>
      left
      rw [if_pos ⟨rfl, hjoined⟩] at hrecv
      refine ⟨?_, hfirst⟩
      simp only [iterate, receive, hrecv, Int.lt_irrefl, if_false, finish]
      rfl
  | some q =>
      right
      have hq := hsmall q rfl
      have hval : (offsetField (some q)).toNat = q := by
        simp only [offsetField, UInt16.toNat_ofNat']
        omega
      have hvalue : ¬ (offsetField (some q) = 0xffff ∧ r.joined = false) := by
        rintro ⟨he, _⟩
        rw [he] at hval
        have : (0xffff : UInt16).toNat = 65535 := rfl
        omega
      rw [if_neg hvalue, if_pos hjoined, hval] at hrecv
      have hlt := hfirst.1
      exact ⟨q, hfirst, iterate_of_pos hrecv (by omega)⟩

end Packets

end PgmReceiver

/-! ## The receiver and the transport -/

/-- What happens in a call of `pgm_socket_t::receive`: the next packet arrives,
nothing arrives, or so many packets were lost. -/
inductive SocketEvent where
  | packet
  | nothing
  | loss (packets : Nat)
  deriving DecidableEq, Repr

/-- A receiver of the packets sent.  Since `first` it has got all packets before
`next`; `stretches` are those it got before its losses. -/
structure PgmLink (δ : Type) where
  packets : List (List UInt8)
  stretches : List (Nat × Nat)
  first : Nat
  next : Nat
  receiver : PgmReceiver δ
  deriving DecidableEq, Repr

namespace PgmLink

variable {δ : Type} [IDemux δ]

/-- A receiver that starts before packet number `first`. -/
def start (packets : List (List UInt8)) (first : Nat) (demux : δ) :
    PgmLink δ :=
  { packets := packets, stretches := [], first := first, next := first,
    receiver := PgmReceiver.create demux }

/-- The transport in a call of `pgm_socket_t::receive`. -/
def receive (l : PgmLink δ) : SocketEvent → Option (SocketResult × PgmLink δ)
  | .packet =>
      (l.packets[l.next]?).map fun p =>
        (.data p, { l with next := l.next + 1 })
  | .nothing => some (.nothing, l)
  | .loss lost =>
      some (.loss,
        { l with
          stretches := l.stretches ++ [(l.first, l.next)]
          first := l.next + lost
          next := l.next + lost })

/-- One turn of the loop of `in_event`. -/
def step (l : PgmLink δ) (event : SocketEvent) : Option (PgmLink δ) :=
  (l.receive event).map fun (result, l') =>
    { l' with receiver := l.receiver.iterate result }

/-- What a turn of the loop can do. -/
inductive Step (l : PgmLink δ) : SocketEvent → PgmLink δ → Prop where
  | packet (p : List UInt8) (hp : l.packets[l.next]? = some p) :
      Step l .packet
        { l with
          next := l.next + 1
          receiver := l.receiver.iterate (.data p) }
  | nothing : Step l .nothing { l with receiver := l.receiver.flush }
  | loss (lost : Nat) :
      Step l (.loss lost)
        { l with
          stretches := l.stretches ++ [(l.first, l.next)]
          first := l.next + lost
          next := l.next + lost
          receiver := l.receiver.flush.lose }

theorem Step.of_step {l l' : PgmLink δ} {event : SocketEvent}
    (h : l.step event = some l') : Step l event l' := by
  cases event with
  | packet =>
      obtain ⟨⟨result, l''⟩, hrecv, rfl⟩ := Option.map_eq_some_iff.mp h
      obtain ⟨p, hp, hpair⟩ := Option.map_eq_some_iff.mp hrecv
      cases hpair
      exact .packet p hp
  | nothing =>
      cases h
      exact .nothing
  | loss lost =>
      cases h
      exact .loss lost

end PgmLink

/-! ## Messages inside a stretch of the stream -/

/-- The messages that begin at `lo` or later and end at `hi` or earlier. -/
def messagesWithin (msgs : List Message) (lo hi : Nat) : List Message :=
  (msgs.zipIdx.filter fun (_, i) =>
    lo ≤ startOf msgs i ∧ startOf msgs (i + 1) ≤ hi).map Prod.fst

section Within

variable {msgs : List Message} {lo hi i j n first : Nat}

theorem startOf_lt (h : i < j) (hj : j ≤ msgs.length) :
    startOf msgs i < startOf msgs j := by
  have hi : i < msgs.length := Nat.lt_of_lt_of_le h hj
  have hsucc := startOf_succ hi
  have hpos := bpFrame_length_pos msgs[i]
  have hle : startOf msgs (i + 1) ≤ startOf msgs j := startOf_mono h
  omega

/-- Some message, or the end of the stream, is the first at or after `lo`. -/
theorem exists_first (h : lo ≤ (bpEncode msgs).length) :
    ∃ first ≤ msgs.length, lo ≤ startOf msgs first ∧
      ∀ i < first, startOf msgs i < lo := by
  have hex : ∃ i, lo ≤ startOf msgs i := ⟨msgs.length, by rwa [startOf_length]⟩
  refine ⟨Nat.find hex, ?_, Nat.find_spec hex, ?_⟩
  · exact Nat.find_le (by rwa [startOf_length])
  · intro i hi
    have := Nat.find_min hex hi
    omega

theorem messagesWithin_of_iff (hn : first + n ≤ msgs.length)
    (hiff : ∀ i < msgs.length,
      (lo ≤ startOf msgs i ∧ startOf msgs (i + 1) ≤ hi) ↔
        first ≤ i ∧ i < first + n) :
    messagesWithin msgs lo hi = (msgs.drop first).take n := by
  have hcut : ∀ (l : List Message) (k c : Nat), c ≤ l.length →
      l.zipIdx k = (l.take c).zipIdx k ++ (l.drop c).zipIdx (k + c) := by
    intro l k c hc
    have h : (l.take c ++ l.drop c).zipIdx k = _ := List.zipIdx_append
    rwa [List.take_append_drop, List.length_take, Nat.min_eq_left hc] at h
  have hlen : ((msgs.drop first).take n).length = n := by
    rw [List.length_take, List.length_drop]
    omega
  unfold messagesWithin
  rw [hcut msgs 0 first (by omega), hcut (msgs.drop first) _ n (by simp; omega),
    List.filter_append, List.filter_append, List.filter_eq_nil_iff.mpr, List.filter_eq_self.mpr,
    List.filter_eq_nil_iff.mpr, List.nil_append, List.append_nil,
    List.zipIdx_map_fst]
  · rintro ⟨m, i⟩ hmem
    obtain ⟨hge, hlt, _⟩ := List.mem_zipIdx hmem
    rw [List.length_drop, List.length_drop] at hlt
    rw [decide_eq_true_iff, hiff i (by omega)]
    omega
  · rintro ⟨m, i⟩ hmem
    obtain ⟨hge, hlt, _⟩ := List.mem_zipIdx hmem
    rw [decide_eq_true_iff, hiff i (by omega)]
    omega
  · rintro ⟨m, i⟩ hmem
    obtain ⟨hge, hlt, _⟩ := List.mem_zipIdx hmem
    rw [List.length_take] at hlt
    rw [decide_eq_true_iff, hiff i (by omega)]
    omega

/-- The messages inside a stretch, counted from the first one that begins in
it. -/
theorem messagesWithin_eq (hi : Nat) (hfirst : first ≤ msgs.length)
    (hlo : lo ≤ startOf msgs first) (hmin : ∀ i < first, startOf msgs i < lo) :
    ∃ n, first + n ≤ msgs.length ∧
      messagesWithin msgs lo hi = (msgs.drop first).take n ∧
      ∀ k, 0 < k → first + k ≤ msgs.length →
        (startOf msgs (first + k) ≤ hi ↔ k ≤ n) := by
  let n := Nat.findGreatest (fun k => startOf msgs (first + k) ≤ hi)
    (msgs.length - first)
  have hle : n ≤ msgs.length - first := Nat.findGreatest_le _
  have hiff : ∀ k, 0 < k → first + k ≤ msgs.length →
      (startOf msgs (first + k) ≤ hi ↔ k ≤ n) := by
    intro k hk hkle
    constructor
    · exact fun h => Nat.le_findGreatest (by omega) h
    · intro hkn
      have hn : startOf msgs (first + n) ≤ hi :=
        Nat.findGreatest_of_ne_zero (P := fun k => startOf msgs (first + k) ≤ hi)
          rfl (by omega)
      exact Nat.le_trans (startOf_mono (by omega)) hn
  refine ⟨n, by omega, messagesWithin_of_iff (by omega) ?_, hiff⟩
  intro i hi
  constructor
  · rintro ⟨hge, hend⟩
    have hfi : first ≤ i := by
      by_contra hlt
      have := hmin i (by omega)
      omega
    obtain ⟨k, rfl⟩ := Nat.le.dest hfi
    have := (hiff (k + 1) (by omega) (by omega)).mp hend
    omega
  · rintro ⟨hfi, hlt⟩
    obtain ⟨k, rfl⟩ := Nat.le.dest hfi
    exact ⟨Nat.le_trans hlo (startOf_mono hfi),
      (hiff (k + 1) (by omega) (by omega)).mpr (by omega)⟩

end Within

/-! ## What the receiver has seen of the stream -/

/-- The packets carry the encoding of `msgs`, or the beginning of it, and tell
where the messages begin. -/
structure PacketStream (msgs : List Message) (packets : List (List UInt8)) :
    Prop where
  stream : payloads packets <+: bpEncode msgs
  packet : ∀ k p, packets[k]? = some p → PacketAt msgs (packetPos packets k) p
  small : ∀ m ∈ msgs, m.length < 2 ^ 64

theorem PacketStream.of_sender {μ : Type} {s : PgmSender μ} (h : s.Inv)
    (hsmall : ∀ m ∈ s.pulled, m.length < 2 ^ 64) :
    PacketStream s.pulled s.packets where
  stream := by
    rw [← h.stream, List.append_assoc]
    exact List.prefix_append _ _
  packet := h.packet
  small := hsmall

section Position

variable {packets : List (List UInt8)} {k k' : Nat} {p : List UInt8}
  {msgs : List Message}

theorem payloads_take_succ (h : packets[k]? = some p) :
    payloads (packets.take (k + 1)) = payloads (packets.take k) ++ p.drop 2 := by
  obtain ⟨hk, rfl⟩ := List.getElem?_eq_some_iff.mp h
  rw [List.take_succ_eq_append_getElem hk, payloads, List.flatMap_append,
    List.flatMap_singleton, payloads]

theorem packetPos_succ (h : packets[k]? = some p) :
    packetPos packets (k + 1) = packetPos packets k + (p.drop 2).length := by
  rw [packetPos, payloads_take_succ h, List.length_append, packetPos]

theorem payloads_take_mono (h : k ≤ k') :
    payloads (packets.take k) <+: payloads (packets.take k') := by
  obtain ⟨n, rfl⟩ := Nat.le.dest h
  rw [List.take_add, payloads, payloads, List.flatMap_append]
  exact List.prefix_append _ _

theorem packetPos_mono (h : k ≤ k') : packetPos packets k ≤ packetPos packets k' :=
  (payloads_take_mono h).length_le

theorem PacketStream.take (h : PacketStream msgs packets) :
    payloads (packets.take k) <+: bpEncode msgs := by
  have htake : payloads (packets.take k) <+: payloads packets :=
    ⟨payloads (packets.drop k), by
      rw [payloads, payloads, ← List.flatMap_append, List.take_append_drop,
        payloads]⟩
  exact htake.trans h.stream

theorem PacketStream.packetPos_le (h : PacketStream msgs packets) :
    packetPos packets k ≤ (bpEncode msgs).length :=
  h.take.length_le

/-- What follows the beginning of a message in the packets. -/
theorem PacketStream.drop_start (h : PacketStream msgs packets)
    (k first : Nat) :
    (payloads (packets.take k)).drop (startOf msgs first) <+:
      bpEncode (msgs.drop first) := by
  have hsplit : bpEncode msgs =
      bpEncode (msgs.take first) ++ bpEncode (msgs.drop first) := by
    rw [← bpEncode_append, List.take_append_drop]
  obtain ⟨rest, hrest⟩ := h.take (k := k)
  rcases Nat.le_total (startOf msgs first)
      (payloads (packets.take k)).length with hle | hge
  · refine ⟨rest, ?_⟩
    rw [← List.drop_append_of_le_length hle, hrest, hsplit, startOf,
      List.drop_left]
  · rw [List.drop_eq_nil_of_le hge]
    exact List.nil_prefix

theorem startOf_add (first n : Nat) :
    startOf msgs (first + n) =
      startOf msgs first + (bpEncode ((msgs.drop first).take n)).length := by
  rw [startOf, List.take_add, bpEncode_append, List.length_append, startOf]

/-- A decoder that has seen the stream from the beginning of a message on has
pushed messages of the stream. -/
theorem PacketStream.parsed {δ : Type} {msgs base : List Message}
    {d : BpDecoder δ} {seen : List UInt8} {first : Nat}
    (h : PacketStream msgs packets) (hfirst : first ≤ msgs.length)
    (hparsed : d.Parsed base seen) (hpre : seen <+: bpEncode (msgs.drop first)) :
    ∃ n rest, first + n ≤ msgs.length ∧
      d.derived.pushed = base ++ (msgs.drop first).take n ∧
      startOf msgs first + seen.length =
        startOf msgs (first + n) + rest.length ∧
      d.Unfinished rest ∧ rest <+: bpEncode (msgs.drop (first + n)) := by
  obtain ⟨bytes, ms, rest, rfl, hpushed, hframed, hrest⟩ := hparsed
  obtain ⟨hbytes, left, hms⟩ := hframed.prefix_of_bpEncode
    (fun m hm => h.small m (List.mem_of_mem_drop hm))
    ((List.prefix_append _ _).trans hpre)
  have hlen := congrArg List.length hms
  rw [List.length_append, List.length_drop] at hlen
  have htake : (msgs.drop first).take ms.length = ms := by
    rw [← hms, List.take_left]
  refine ⟨ms.length, rest, by omega, by rw [htake, hpushed], ?_, hrest, ?_⟩
  · rw [startOf_add, htake, hbytes, List.length_append]
    omega
  · rw [← hms, bpEncode_append, hbytes, List.prefix_append_right_inj] at hpre
    rw [← List.drop_drop, ← hms, List.drop_left]
    exact hpre

end Position

namespace PgmLink

variable {δ : Type} {msgs base : List Message} {l l' : PgmLink δ}

/-- The position of the first packet since the last loss. -/
def lo (l : PgmLink δ) : Nat := packetPos l.packets l.first

/-- The position after the last packet. -/
def hi (l : PgmLink δ) : Nat := packetPos l.packets l.next

/-- The receiver in the current stretch, in which it has pushed what comes after
`base`.  Message number `first` is the first that begins in the stretch, or
after it.  As long as its beginning has not been seen, the receiver is not
joined; from then on the decoder has got everything. -/
structure Current (msgs base : List Message) (l : PgmLink δ) (first : Nat) :
    Prop where
  order : l.first ≤ l.next
  bound : first ≤ msgs.length
  begins : l.lo ≤ startOf msgs first
  least : ∀ i < first, startOf msgs i < l.lo
  waiting : l.receiver.joined = false → l.hi ≤ startOf msgs first ∧
    l.receiver.decoder.Initial ∧ l.receiver.pushed = base
  joined : l.receiver.joined = true → startOf msgs first ≤ l.hi ∧
    BpDecoder.Parsed base l.receiver.decoder
      ((payloads (l.packets.take l.next)).drop (startOf msgs first))

/-- A receiver that is not joined, at the beginning of a stretch. -/
theorem Current.begin (hstream : PacketStream msgs l.packets)
    (hnext : l.next = l.first) (hjoined : l.receiver.joined = false)
    (hinit : l.receiver.decoder.Initial) :
    ∃ first, Current msgs l.receiver.pushed l first := by
  obtain ⟨first, hbound, hbegins, hleast⟩ :=
    exists_first (hstream.packetPos_le (k := l.first))
  refine ⟨first, Nat.le_of_eq hnext.symm, hbound, hbegins, hleast, ?_, ?_⟩
  · refine fun _ => ⟨?_, hinit, rfl⟩
    rw [hi, hnext]
    exact hbegins
  · rw [hjoined]
    exact nofun

/-- A loss begins a stretch. -/
theorem Current.of_loss [IDemux δ] {lost : Nat} (h : Step l (.loss lost) l')
    (hstream : PacketStream msgs l.packets) :
    ∃ first, Current msgs l'.receiver.pushed l' first := by
  cases h
  exact Current.begin hstream rfl rfl ⟨rfl, rfl, rfl⟩

/-- The messages pushed in the current stretch are the first that begin in it,
and they end in it. -/
theorem Current.pushed {first : Nat} (hstream : PacketStream msgs l.packets)
    (h : Current msgs base l first) :
    ∃ n, first + n ≤ msgs.length ∧
      l.receiver.pushed = base ++ (msgs.drop first).take n ∧
      (0 < n → startOf msgs (first + n) ≤ l.hi) := by
  cases hjoined : l.receiver.joined with
  | false =>
      obtain ⟨_, _, hpushed⟩ := h.waiting hjoined
      exact ⟨0, h.bound, by simpa using hpushed, fun h0 => by omega⟩
  | true =>
      obtain ⟨hle, hparsed⟩ := h.joined hjoined
      obtain ⟨n, rest, hn, hpushed, hlen, _⟩ :=
        hstream.parsed h.bound hparsed (hstream.drop_start l.next first)
      refine ⟨n, hn, hpushed, fun _ => ?_⟩
      rw [List.length_drop] at hlen
      change _ ≤ (payloads (l.packets.take l.next)).length at hle
      change _ ≤ (payloads (l.packets.take l.next)).length
      omega

variable [IDemux δ] {first : Nat} {p : List UInt8}

/-- The next packet: it is dropped, having no header, or it is passed to the
decoder, at least from the first message of the stretch on. -/
theorem Current.packet_cases (hstream : PacketStream msgs l.packets)
    (h : Current msgs base l first) (hp : l.packets[l.next]? = some p) :
    (l.receiver.joined = false ∧ l.receiver.iterate (.data p) =
        l.receiver.flush ∧
        packetPos l.packets (l.next + 1) ≤ startOf msgs first) ∨
      ∃ seen data, l.receiver.iterate (.data p) =
          { l.receiver with
            joined := true
            decoder := (l.receiver.decoder.write data).1 } ∧
        startOf msgs first ≤ packetPos l.packets (l.next + 1) ∧
        BpDecoder.Parsed base l.receiver.decoder seen ∧
        seen ++ data =
          (payloads (l.packets.take (l.next + 1))).drop
            (startOf msgs first) := by
  have hat := hstream.packet _ _ hp
  have hnext := packetPos_succ hp
  have hlohi : l.lo ≤ l.hi := packetPos_mono h.order
  rw [payloads_take_succ hp]
  cases hjoined : l.receiver.joined with
  | true =>
      obtain ⟨hle, hparsed⟩ := h.joined hjoined
      refine .inr ⟨_, p.drop 2, PgmReceiver.iterate_joined hat hjoined, ?_,
        hparsed, ?_⟩
      · rw [hnext]
        exact Nat.le_trans hle (Nat.le_add_right _ _)
      · exact (List.drop_append_of_le_length hle).symm
  | false =>
      obtain ⟨hge, hinit, hpushed⟩ := h.waiting hjoined
      rw [hi] at hge hlohi
      rcases PgmReceiver.iterate_waiting hat hjoined with
        ⟨hdrop, hnone⟩ | ⟨q, ⟨hq, ⟨i, hi, hstart⟩, hleast⟩, hjoin⟩
      · refine .inl ⟨rfl, hdrop, ?_⟩
        rw [hnext]
        rcases Nat.lt_or_ge first msgs.length with hlt | hlast
        · exact hnone first hlt hge
        · have heq : first = msgs.length := Nat.le_antisymm h.bound hlast
          rw [← hnext, heq, startOf_length]
          exact hstream.packetPos_le
      · -- The header in the packet is that of the first message.
        have hfirst : first ≤ i := by
          by_contra hlt
          have := h.least i (by omega)
          omega
        have hpos : startOf msgs first = packetPos l.packets l.next + q := by
          apply Nat.le_antisymm
          · rw [← hstart]
            exact startOf_mono hfirst
          · exact hleast first (Nat.lt_of_le_of_lt hfirst hi) hge
        refine .inr ⟨[], _, hjoin, by omega, hpushed ▸ .of_initial hinit, ?_⟩
        rw [hpos, packetPos, List.nil_append, List.drop_length_add_append]

/-- As long as the decoder consumes what it is passed, it has seen everything
from the first message of the stretch on. -/
theorem Current.packet (hstream : PacketStream msgs l.packets)
    (h : Current msgs base l first) (hp : l.packets[l.next]? = some p)
    (hall : ∀ seen data, BpDecoder.Parsed base l.receiver.decoder seen →
      seen ++ data =
        (payloads (l.packets.take (l.next + 1))).drop (startOf msgs first) →
      (l.receiver.decoder.write data).2 = data.length) :
    Current msgs base
      { l with next := l.next + 1, receiver := l.receiver.iterate (.data p) }
      first := by
  have horder : l.first ≤ l.next + 1 := Nat.le_succ_of_le h.order
  rcases h.packet_cases hstream hp with
    ⟨hjoined, hdrop, hge⟩ | ⟨seen, data, hpass, hle, hparsed, hseen⟩
  · obtain ⟨_, hinit, hpushed⟩ := h.waiting hjoined
    rw [hdrop]
    refine ⟨horder, h.bound, h.begins, h.least, fun _ => ⟨hge, hinit, hpushed⟩,
      fun hj => ?_⟩
    change l.receiver.joined = true at hj
    rw [hjoined] at hj
    cases hj
  · rw [hpass]
    refine ⟨horder, h.bound, h.begins, h.least, nofun,
      fun _ => ⟨hle, ?_⟩⟩
    have hwrite := BpDecoder.write_spec hparsed data
    rw [hall seen data hparsed hseen, List.take_length, hseen] at hwrite
    exact hwrite

omit [IDemux δ] in
theorem Current.demux (h : Current msgs base l first) (demux : δ) :
    Current msgs base
      { l with receiver.decoder.derived.demux := demux } first where
  order := h.order
  bound := h.bound
  begins := h.begins
  least := h.least
  waiting := h.waiting
  joined := fun hj => ⟨(h.joined hj).1, (h.joined hj).2.derived rfl⟩

end PgmLink

end ZeroMQ
