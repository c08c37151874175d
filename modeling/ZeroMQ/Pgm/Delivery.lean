import ZeroMQ.Pgm.Receiver

/-!
# What a PGM receiver delivers

A receiver may start at any packet and lose packets at any time.  With a demux
that refuses nothing it pushes the messages that lie inside the stretches of
packets it has got.

A demux may refuse messages, however, when the pipes behind it are full.  The
decoder then stops in the middle of a packet, the rest of the packet is thrown
away, and the bytes of the next packet are taken for the missing ones.  Messages
stay intact only as long as this does not happen, that is, as long as a message
is refused only when it ends with the last byte of a packet.

## Main results

* `PgmLink.joins_at_any_packet` — the offsets in the packets, and the messages
  pushed by a receiver whose demux refuses nothing.
* `PgmLink.pushed_in_order` — with refusals at the ends of packets only, the
  messages pushed are messages sent, in order, and those that are missing are
  accounted for by gaps.
* `PgmLink.refusal_corrupts` — a refusal in the middle of a packet makes the
  receiver push a message that was never sent.
-/

namespace ZeroMQ

open ZeroMQ.Lib

/-- A demux that answers as listed, and accepts everything after that. -/
instance : IDemux (List Bool) where
  write
    | [], _ => (true, [])
    | answer :: answers, _ => (answer, answers)
  gap := id
  flush := id
  initialiseShutdown := id

namespace PgmLink

variable {δ : Type} {msgs base : List Message} {l l' : PgmLink δ}
  {first : Nat}

/-- The messages inside the stretches of packets the receiver has got. -/
def expected (msgs : List Message) (l : PgmLink δ) : List Message :=
  (l.stretches ++ [(l.first, l.next)]).flatMap fun s =>
    messagesWithin msgs (packetPos l.packets s.1) (packetPos l.packets s.2)

/-- A decoder that wants more bytes has pushed all messages of the stretch. -/
theorem Current.pushed_all (hstream : PacketStream msgs l.packets)
    (h : Current msgs base l first)
    (hread : l.receiver.joined = true → l.receiver.decoder.toRead ≠ 0) :
    l.receiver.pushed = base ++ messagesWithin msgs l.lo l.hi := by
  obtain ⟨n, hn, hwithin, hiff⟩ :=
    messagesWithin_eq l.hi h.bound h.begins h.least
  rw [hwithin]
  cases hjoined : l.receiver.joined with
  | false =>
      obtain ⟨hge, _, hpushed⟩ := h.waiting hjoined
      have hzero : n = 0 := by
        by_contra hne
        have hend := (hiff n (by omega) hn).mpr (Nat.le_refl _)
        have hlt : startOf msgs first < startOf msgs (first + n) :=
          startOf_lt (by omega) hn
        omega
      simp [hzero, hpushed]
  | true =>
      obtain ⟨hle, hparsed⟩ := h.joined hjoined
      obtain ⟨k, rest, hk, hpushed, hlen, hrest, hpre⟩ :=
        hstream.parsed h.bound hparsed (hstream.drop_start l.next first)
      rw [List.length_drop] at hlen
      change _ ≤ (payloads (l.packets.take l.next)).length at hle
      have hhi : startOf msgs (first + k) + rest.length = l.hi := by
        change _ = (payloads (l.packets.take l.next)).length
        omega
      have hkn : k ≤ n := by
        rcases Nat.eq_zero_or_pos k with hzero | hpos
        · omega
        · exact (hiff k hpos hk).mp (by omega)
      have hnk : n ≤ k := by
        -- The frame of the next message has not been seen as a whole.
        by_contra hlt
        have hnext : first + k < msgs.length := by omega
        have hend : startOf msgs (first + (k + 1)) ≤ l.hi :=
          (hiff (k + 1) (by omega) (by omega)).mpr (by omega)
        rw [← Nat.add_assoc, startOf_succ hnext] at hend
        refine hrest.not_frame (hread hjoined)
          (BpSize.of_bpHeader (hstream.small _ (List.getElem_mem hnext))) ?_
        rw [List.drop_eq_getElem_cons hnext, bpEncode_cons] at hpre
        exact List.prefix_of_prefix_length_le (List.prefix_append _ _) hpre
          (by rw [bpFrame] at hend; omega)
      rw [PgmReceiver.pushed, hpushed, Nat.le_antisymm hnk hkn]

/-- What holds of a link whose demux refuses nothing. -/
def Complete (msgs : List Message) (packets : List (List UInt8))
    (l : PgmLink δ) : Prop :=
  l.packets = packets ∧ ∃ first base, Current msgs base l first ∧
    base = l.stretches.flatMap (fun s =>
      messagesWithin msgs (packetPos packets s.1) (packetPos packets s.2)) ∧
    (l.receiver.joined = true → l.receiver.decoder.toRead ≠ 0)

variable [IDemux δ] {packets : List (List UInt8)} {event : SocketEvent}

omit [IDemux δ] in
theorem Complete.start (hstream : PacketStream msgs packets) (a : Nat)
    (demux : δ) : Complete msgs packets (start packets a demux) := by
  obtain ⟨first, h⟩ := Current.begin (l := PgmLink.start packets a demux)
    hstream rfl rfl ⟨rfl, rfl, rfl⟩
  exact ⟨rfl, first, [], h, rfl, nofun⟩

theorem Complete.step (hstream : PacketStream msgs packets)
    (haccept : ∀ (demux : δ) m, (IDemux.write demux m).1 = true)
    (h : Complete msgs packets l) (hstep : l.step event = some l') :
    Complete msgs packets l' := by
  obtain ⟨rfl, first, base, hcur, hbase, hread⟩ := h
  cases Step.of_step hstep with
  | nothing => exact ⟨rfl, first, base, hcur.demux _, hbase, hread⟩
  | loss lost =>
      obtain ⟨first', hbegin⟩ := Current.of_loss (.loss lost) hstream
      refine ⟨rfl, first', _, hbegin, ?_, nofun⟩
      change l.receiver.pushed = _
      rw [hcur.pushed_all hstream hread, hbase, List.flatMap_append,
        List.flatMap_singleton]
      rfl
  | packet p hp =>
      refine ⟨rfl, first, base, hcur.packet hstream hp ?_, hbase, ?_⟩
      · exact fun seen data _ _ => (BpDecoder.write_all haccept _ data).1
      · rcases hcur.packet_cases hstream hp with
          ⟨hjoined, hdrop, _⟩ | ⟨seen, data, hpass, _⟩
        · rw [hdrop]
          exact hread
        · rw [hpass]
          exact fun _ => (BpDecoder.write_all haccept _ data).2

end PgmLink

/-- A PGM receiver can join the stream at any packet.  The sender may be given
buffers for 1 to 65534 bytes after the offset and packets may be refused by the
socket; the mux has messages when it likes.  Each packet then tells where the
first message header in it is, and a receiver that starts at any packet, with
any losses, pushes the messages inside the stretches of packets it has got. -/
theorem PgmLink.joins_at_any_packet {μ δ : Type} [Mux μ] [IDemux δ] (mux : μ)
    (outs : List PgmOut) (s : PgmSender μ)
    (hsend : Run PgmSender.outEvent PgmSender.Capacity (PgmSender.create mux)
      outs s) :
    (∀ k p, s.packets[k]? = some p →
        PacketAt s.pulled (packetPos s.packets k) p) ∧
      ((∀ m ∈ s.pulled, m.length < 2 ^ 64) →
        ∀ (demux : δ), (∀ (demux : δ) m, (IDemux.write demux m).1 = true) →
        ∀ a events l,
          Run PgmLink.step Any (PgmLink.start s.packets a demux) events l →
          l.receiver.pushed = l.expected s.pulled) := by
  have hinv := PgmSender.inv_of_run hsend
  refine ⟨hinv.packet, fun hsmall demux haccept a events l hrun => ?_⟩
  have hstream := PacketStream.of_sender hinv hsmall
  have hcomplete : PgmLink.Complete s.pulled s.packets l :=
    hrun.invariant (fun _ _ _ h _ hstep => h.step hstream haccept hstep)
      (.start hstream a demux)
  obtain ⟨hpackets, first, base, hcur, hbase, hread⟩ := hcomplete
  rw [← hpackets] at hstream
  rw [hcur.pushed_all hstream hread, hbase, ← hpackets, PgmLink.expected,
    List.flatMap_append, List.flatMap_singleton]
  rfl

/-- Three messages cut into packets with four bytes of payload. -/
theorem packets_of_three_messages :
    ∃ s, Run PgmSender.outEvent PgmSender.Capacity
        (PgmSender.create ([[10], [7, 1, 66], [5]] : List Message))
        [⟨6, true⟩, ⟨6, false⟩, ⟨6, true⟩] s ∧
      s.packets = [[0, 0, 1, 10, 3, 7], [0, 2, 1, 66, 1, 5]] ∧
      s.pulled = [[10], [7, 1, 66], [5]] :=
  Run.of_exec_any (by decide +kernel)

/-- A receiver that starts at the second packet gets the third message; one that
starts at the first packet and loses the second gets the first message. -/
theorem PgmLink.joins_at_any_packet_second :
    ∃ s : PgmSender (List Message),
      Run PgmSender.outEvent PgmSender.Capacity
        (PgmSender.create [[10], [7, 1, 66], [5]])
        [⟨6, true⟩, ⟨6, false⟩, ⟨6, true⟩] s ∧
      (∃ l : PgmLink Unit,
        Run PgmLink.step Any (PgmLink.start s.packets 1 ())
          [.nothing, .packet] l ∧
        l.receiver.pushed = [[5]] ∧
        l.receiver.pushed = l.expected s.pulled) ∧
      ∃ l : PgmLink Unit,
        Run PgmLink.step Any (PgmLink.start s.packets 0 ())
          [.packet, .loss 1] l ∧
        l.receiver.pushed = [[10]] ∧
        l.receiver.pushed = l.expected s.pulled := by
  obtain ⟨s, hsend, hpackets, hpulled⟩ := packets_of_three_messages
  have hsmall : ∀ m ∈ s.pulled, m.length < 2 ^ 64 := by
    rw [hpulled]
    decide
  have hjoin := (joins_at_any_packet (δ := Unit) _ _ s hsend).2 hsmall ()
    (fun _ _ => rfl)
  refine ⟨s, hsend, ?_⟩
  rw [hpackets] at hjoin ⊢
  constructor
  · exact Run.exists_of_exec (by decide +kernel)
      fun l hrun hl => ⟨hl, hjoin _ _ _ hrun⟩
  · exact Run.exists_of_exec (by decide +kernel)
      fun l hrun hl => ⟨hl, hjoin _ _ _ hrun⟩

/-! ## Refusals -/

section Refusals

variable {δ : Type} [IDemux δ] {msgs base : List Message} {l l' : PgmLink δ}
  {first : Nat} {packets : List (List UInt8)} {event : SocketEvent}

/-- The messages are offered to the demux one after the other; the result is
the demux if it has accepted all of them. -/
def feed (demux : δ) : List Message → Option δ
  | [] => some demux
  | m :: ms =>
      match IDemux.write demux m with
      | (true, demux') => feed demux' ms
      | (false, _) => none

theorem feed_append (demux : δ) (ms ms' : List Message) :
    feed demux (ms ++ ms') = (feed demux ms).bind fun d => feed d ms' := by
  induction ms generalizing demux with
  | nil => rfl
  | cons m ms ih =>
      simp only [List.cons_append, feed]
      split
      · exact ih _
      · rfl

/-- `write` consumes its buffer, or the demux has accepted some messages and
then refused the one in the decoder. -/
theorem BpDecoder.write_offers (d : BpDecoder δ) (data : List UInt8) :
    (d.write data).2 = data.length ∨
      ∃ ms demux, (d.write data).1.derived.pushed = d.derived.pushed ++ ms ∧
        feed d.derived.demux ms = some demux ∧
        (IDemux.write demux (d.write data).1.buf).1 = false ∧
        (d.write data).1.toRead = 0 ∧
        (d.write data).1.next = .messageReady := by
  refine (Decoder.write_rule
    (I := fun (d' : BpDecoder δ) _ => ∃ ms,
      d'.derived.pushed = d.derived.pushed ++ ms ∧
      feed d.derived.demux ms = some d'.derived.demux)
    (J := fun (d' : BpDecoder δ) _ => ∃ ms demux,
      d'.derived.pushed = d.derived.pushed ++ ms ∧
      feed d.derived.demux ms = some demux ∧
      (IDemux.write demux d'.buf).1 = false ∧ d'.toRead = 0 ∧
      d'.next = .messageReady)
    ?_ ?_ ?_ d data [] ⟨[], by simp, rfl⟩).imp (fun h => h.2.1) id
  · exact fun d' _ _ h _ => h
  · rintro d' _ toRead next derived ⟨ms, hpushed, hfeed⟩ _ hact
    change action d'.next d'.buf d'.derived = _ at hact
    unfold action at hact
    split at hact
    · split at hact <;> (cases hact; exact ⟨ms, hpushed, hfeed⟩)
    · cases hact
      exact ⟨ms, hpushed, hfeed⟩
    · split at hact
      · cases hact
      · next demux' hwrite =>
          cases hact
          refine ⟨ms ++ [d'.buf], by simp [Decoder.nextStep, hpushed], ?_⟩
          simp only [feed_append, hfeed, Option.bind_some, feed, hwrite]
          rfl
  · rintro d' _ derived ⟨ms, hpushed, hfeed⟩ hzero hact
    obtain ⟨hnext, hrefused, hsame⟩ := action_eq_none hact
    exact ⟨ms, _, hsame.trans hpushed, hfeed, hrefused, hzero, hnext⟩

/-- The messages of the stretch that have not been pushed and end before the
last byte of the next packet. -/
def PgmLink.outstanding (msgs : List Message) (l : PgmLink δ) : List Message :=
  (messagesWithin msgs l.lo (packetPos l.packets (l.next + 1) - 1)).drop
    (l.receiver.pushed.length - l.receiver.gaps.getLastD 0)

/-- No message will be refused in the middle of the next packet. -/
def PgmLink.Roomy (msgs : List Message) (l : PgmLink δ) : SocketEvent → Prop
  | .packet =>
      (feed l.receiver.decoder.derived.demux (l.outstanding msgs)).isSome
  | _ => True

instance (l : PgmLink δ) (event : SocketEvent) :
    Decidable (l.Roomy msgs event) :=
  match event with
  | .packet => inferInstanceAs (Decidable (_ = true))
  | .nothing => .isTrue trivial
  | .loss _ => .isTrue trivial

namespace PgmLink

omit [IDemux δ] in
/-- A decoder that stops with a message refused has seen all of its frame. -/
theorem refused_frame {d : BpDecoder δ} {rest : List UInt8}
    (h : d.Unfinished rest) (hread : d.toRead = 0)
    (hnext : d.next = .messageReady) (hsmall : ∀ m ∈ msgs, m.length < 2 ^ 64)
    (hpre : rest <+: bpEncode msgs) :
    rest = bpFrame d.buf ∧ [d.buf] <+: msgs := by
  cases h with
  | size hnext' => rw [hnext] at hnext'; cases hnext'
  | longSize hnext' => rw [hnext] at hnext'; cases hnext'
  | @body header _ hsize =>
      rw [hread, Nat.add_zero] at hsize
      have hframed := BpFramed.nil.snoc hsize
      rw [List.nil_append, List.nil_append] at hframed
      simpa using hframed.prefix_of_bpEncode hsmall hpre

/-- With a demux that does not refuse the outstanding messages the decoder
consumes the packet. -/
theorem Current.consumed {seen data : List UInt8}
    (hstream : PacketStream msgs l.packets) (h : Current msgs base l first)
    (hgaps : base.length = l.receiver.gaps.getLastD 0)
    (hroom : l.Roomy msgs .packet)
    (hparsed : l.receiver.decoder.Parsed base seen)
    (hdata : seen ++ data =
      (payloads (l.packets.take (l.next + 1))).drop (startOf msgs first)) :
    (l.receiver.decoder.write data).2 = data.length := by
  rcases BpDecoder.write_offers l.receiver.decoder data with
    hall | ⟨ms, demux, hpushed', hfeed, hrefused, hread, hnext⟩
  · exact hall
  by_contra hshort
  have hle : (l.receiver.decoder.write data).2 ≤ data.length :=
    Decoder.write_le _ _
  have hwrite := BpDecoder.write_spec hparsed data
  generalize l.receiver.decoder.write data = result at *
  obtain ⟨d, n⟩ := result
  dsimp only at *
  have hpre := hstream.drop_start (l.next + 1) first
  rw [← hdata] at hpre
  obtain ⟨k₀, _, _, hpushed₀, _⟩ := hstream.parsed h.bound hparsed
    ((List.prefix_append _ _).trans hpre)
  obtain ⟨k, rest, hk, hpushed, hlen, hrest, hprefix⟩ :=
    hstream.parsed h.bound hwrite
      (((List.prefix_append_right_inj _).mpr (List.take_prefix _ _)).trans hpre)
  obtain ⟨rfl, more, hmore⟩ := refused_frame hrest hread hnext
    (fun m hm => hstream.small m (List.mem_of_mem_drop hm)) hprefix
  -- The message refused ends before the end of the packet.
  have hone : (msgs.drop first).take (k + 1) =
      (msgs.drop first).take k ++ [d.buf] := by
    rw [List.take_add, List.drop_drop, ← hmore, List.singleton_append,
      List.take_one, List.head?_cons, Option.toList_some]
  have hend : startOf msgs (first + (k + 1)) ≤
      packetPos l.packets (l.next + 1) - 1 := by
    have htotal := congrArg List.length hdata
    rw [List.length_append, List.length_drop] at htotal
    rw [List.length_append, List.length_take] at hlen
    rw [startOf_add] at hlen
    rw [startOf_add, hone, bpEncode_append, List.length_append]
    simp only [bpEncode_cons, bpEncode_nil, List.append_nil]
    change _ ≤ (payloads (l.packets.take (l.next + 1))).length - 1
    omega
  obtain ⟨N, hN, hwithin, hiff⟩ := messagesWithin_eq
    (packetPos l.packets (l.next + 1) - 1) h.bound h.begins h.least
  have hkN : k + 1 ≤ N := (hiff (k + 1) (by omega) (by
    have := congrArg List.length hmore
    simp only [List.length_append, List.length_drop, List.length_singleton]
      at this
    omega)).mp hend
  obtain ⟨r, rfl⟩ := Nat.le.dest hkN
  -- So it is one of the outstanding messages, after those accepted.
  have hnew : (msgs.drop first).take k = (msgs.drop first).take k₀ ++ ms := by
    rw [hpushed, hpushed₀, List.append_assoc] at hpushed'
    exact List.append_cancel_left hpushed'
  have hcount : l.receiver.pushed.length - l.receiver.gaps.getLastD 0 =
      ((msgs.drop first).take k₀).length := by
    rw [PgmReceiver.pushed, hpushed₀, List.length_append, hgaps]
    omega
  simp only [Roomy, outstanding] at hroom
  rw [hcount, hwithin, List.take_add, hone, hnew, List.append_assoc,
    List.append_assoc, List.drop_left, feed_append, hfeed, Option.bind_some,
    List.singleton_append, feed] at hroom
  split at hroom
  · next hwrite =>
      rw [hwrite] at hrefused
      cases hrefused
  · cases hroom

end PgmLink

/-- The messages `pushed` are those of `msgs` at the positions `idx`, in the
order they were sent, and wherever some are missing between two of them there
is a gap. -/
structure InOrder (msgs pushed : List Message) (gaps idx : List Nat) :
    Prop where
  messages : idx.map (fun i => msgs[i]?) = pushed.map some
  increasing : idx.Pairwise (· < ·)
  accounted : ∀ j i i', idx[j]? = some i → idx[j + 1]? = some i' →
    i' = i + 1 ∨ j + 1 ∈ gaps

namespace InOrder

variable {pushed : List Message} {gaps idx : List Nat} {n : Nat}

theorem nil : InOrder msgs [] [] [] where
  messages := rfl
  increasing := .nil
  accounted := by simp

theorem length_eq (h : InOrder msgs pushed gaps idx) :
    idx.length = pushed.length := by
  simpa using congrArg List.length h.messages

theorem lt_length (h : InOrder msgs pushed gaps idx) {i : Nat} (hi : i ∈ idx) :
    i < msgs.length := by
  have hmem : msgs[i]? ∈ pushed.map some := by
    rw [← h.messages]
    exact List.mem_map_of_mem hi
  obtain ⟨m, _, hm⟩ := List.mem_map.mp hmem
  exact (List.getElem?_eq_some_iff.mp hm.symm).1

theorem mem_sent (h : InOrder msgs pushed gaps idx) {m : Message}
    (hm : m ∈ pushed) : m ∈ msgs := by
  have hmem : some m ∈ idx.map (fun i => msgs[i]?) := by
    rw [h.messages]
    exact List.mem_map_of_mem hm
  obtain ⟨i, _, hi⟩ := List.mem_map.mp hmem
  exact List.mem_of_getElem? hi

/-- A run of messages after a gap. -/
theorem extend (h : InOrder msgs pushed gaps idx)
    (hlater : ∀ i ∈ idx, i < first) (hgap : pushed ≠ [] → pushed.length ∈ gaps)
    (hn : first + n ≤ msgs.length) :
    InOrder msgs (pushed ++ (msgs.drop first).take n) gaps
      (idx ++ List.range' first n) where
  messages := by
    rw [List.map_append, List.map_append, h.messages]
    congr 1
    apply List.ext_getElem?
    intro j
    rw [List.getElem?_map, List.getElem?_map, List.getElem?_take,
      List.getElem?_drop]
    by_cases hj : j < n
    · rw [List.getElem?_range' hj, if_pos hj, Option.map_some, Nat.one_mul,
        List.getElem?_eq_getElem (by omega), Option.map_some]
    · rw [List.getElem?_eq_none (by simpa using hj), if_neg hj, Option.map_none,
        Option.map_none]
  increasing := by
    rw [List.pairwise_append]
    refine ⟨h.increasing, List.pairwise_lt_range', ?_⟩
    intro i hi j hj
    have := hlater i hi
    have := (List.mem_range'_1.mp hj).1
    omega
  accounted := by
    intro j i i' hi hi'
    have hlen := h.length_eq
    rcases Nat.lt_trichotomy (j + 1) idx.length with hlt | heq | hgt
    · rw [List.getElem?_append_left (by omega)] at hi hi'
      exact h.accounted j i i' hi hi'
    · right
      rw [heq, hlen]
      apply hgap
      rintro rfl
      simp [← heq] at hlen
    · left
      rw [List.getElem?_append_right (by omega)] at hi hi'
      obtain ⟨_, rfl⟩ := List.getElem?_eq_some_iff.mp hi
      obtain ⟨_, rfl⟩ := List.getElem?_eq_some_iff.mp hi'
      rw [List.getElem_range', List.getElem_range']
      omega

theorem more_gaps (h : InOrder msgs pushed gaps idx) (gap : Nat) :
    InOrder msgs pushed (gaps ++ [gap]) idx where
  messages := h.messages
  increasing := h.increasing
  accounted := fun j i i' hi hi' =>
    (h.accounted j i i' hi hi').imp_right (List.mem_append_left _)

end InOrder

namespace PgmLink

/-- What holds of a link that refuses no message in the middle of a packet.
The messages `base` pushed before the last gap end before the stretch. -/
structure Tracked (msgs : List Message) (packets : List (List UInt8))
    (l : PgmLink δ) (first : Nat) (base : List Message) (idx : List Nat) :
    Prop where
  packets : l.packets = packets
  current : Current msgs base l first
  inOrder : InOrder msgs base l.receiver.gaps idx
  before : ∀ i ∈ idx, startOf msgs (i + 1) ≤ l.lo
  gap : base.length = l.receiver.gaps.getLastD 0

variable {idx : List Nat}

omit [IDemux δ] in
/-- The messages pushed, those of the current stretch included. -/
theorem Tracked.pushed (hstream : PacketStream msgs packets)
    (h : Tracked msgs packets l first base idx) :
    ∃ idx', InOrder msgs l.receiver.pushed l.receiver.gaps idx' ∧
      ∀ i ∈ idx', startOf msgs (i + 1) ≤ l.hi := by
  obtain ⟨rfl, hcur, horder, hbefore, hgap⟩ := h
  obtain ⟨n, hn, hpushed, hend⟩ := hcur.pushed hstream
  have hlohi : l.lo ≤ l.hi := packetPos_mono hcur.order
  refine ⟨idx ++ List.range' first n, ?_, ?_⟩
  · rw [hpushed]
    refine horder.extend ?_ ?_ hn
    · intro i hi
      by_contra hge
      have hlt : startOf msgs first < startOf msgs (i + 1) :=
        startOf_lt (by omega) (horder.lt_length hi)
      have := hbefore i hi
      have := hcur.begins
      omega
    · intro hne
      rw [hgap]
      rcases List.eq_nil_or_concat l.receiver.gaps with hnil | ⟨gs, g, hgs⟩
      · rw [hnil] at hgap
        exact (hne (List.length_eq_zero_iff.mp hgap)).elim
      · simp [hgs]
  · intro i hi
    rcases List.mem_append.mp hi with hold | hnew
    · exact Nat.le_trans (hbefore i hold) hlohi
    · obtain ⟨hge, hlt⟩ := List.mem_range'_1.mp hnew
      exact Nat.le_trans (startOf_mono (by omega)) (hend (by omega))

omit [IDemux δ] in
theorem Tracked.start (hstream : PacketStream msgs packets) (a : Nat)
    (demux : δ) :
    ∃ first, Tracked msgs packets (start packets a demux) first [] [] := by
  obtain ⟨first, h⟩ := Current.begin (l := PgmLink.start packets a demux)
    hstream rfl rfl ⟨rfl, rfl, rfl⟩
  exact ⟨first, rfl, h, .nil, by simp, rfl⟩

theorem Tracked.step (hstream : PacketStream msgs packets)
    (h : Tracked msgs packets l first base idx) (hroom : l.Roomy msgs event)
    (hstep : l.step event = some l') :
    ∃ first' base' idx', Tracked msgs packets l' first' base' idx' := by
  obtain ⟨rfl, hcur, horder, hbefore, hgap⟩ := h
  cases Step.of_step hstep with
  | nothing =>
      exact ⟨first, base, idx, rfl, hcur.demux _, horder, hbefore, hgap⟩
  | packet p hp =>
      have hgaps : (l.receiver.iterate (.data p)).gaps = l.receiver.gaps := by
        rcases hcur.packet_cases hstream hp with
          ⟨_, hdrop, _⟩ | ⟨seen, data, hpass, _⟩
        · rw [hdrop]
          rfl
        · rw [hpass]
      refine ⟨first, base, idx, rfl, hcur.packet hstream hp ?_,
        by rw [hgaps]; exact horder, hbefore, by rw [hgaps]; exact hgap⟩
      exact fun seen data hparsed hdata =>
        hcur.consumed hstream hgap hroom hparsed hdata
  | loss lost =>
      obtain ⟨idx', horder', hend⟩ :=
        Tracked.pushed hstream ⟨rfl, hcur, horder, hbefore, hgap⟩
      obtain ⟨first', hbegin⟩ := Current.of_loss (.loss lost) hstream
      refine ⟨first', _, idx', rfl, hbegin, horder'.more_gaps _, ?_, ?_⟩
      · exact fun i hi => Nat.le_trans (hend i hi)
          (packetPos_mono (Nat.le_add_right _ _))
      · simp [PgmReceiver.lose, PgmReceiver.flush, PgmReceiver.pushed,
          BpDecoder.reset]

end PgmLink

end Refusals

/-- A receiver that refuses no message in the middle of a packet pushes messages
that were sent, in the order they were sent, and where some are missing it has
announced a gap. -/
theorem PgmLink.pushed_in_order {μ δ : Type} [Mux μ] [IDemux δ] (mux : μ)
    (outs : List PgmOut) (s : PgmSender μ)
    (hsend : Run PgmSender.outEvent PgmSender.Capacity (PgmSender.create mux)
      outs s)
    (hsmall : ∀ m ∈ s.pulled, m.length < 2 ^ 64) (demux : δ) (a : Nat)
    (events : List SocketEvent) (l : PgmLink δ)
    (hrun : Run PgmLink.step (PgmLink.Roomy s.pulled)
      (PgmLink.start s.packets a demux) events l) :
    ∃ idx, InOrder s.pulled l.receiver.pushed l.receiver.gaps idx := by
  have hstream := PacketStream.of_sender (PgmSender.inv_of_run hsend) hsmall
  have htracked : ∃ first base idx,
      Tracked s.pulled s.packets l first base idx := by
    refine hrun.invariant (I := fun l => ∃ first base idx,
      Tracked s.pulled s.packets l first base idx) ?_ ?_
    · rintro l event l' ⟨first, base, idx, h⟩ hroom hstep
      exact h.step hstream hroom hstep
    · obtain ⟨first, h⟩ := Tracked.start hstream a demux
      exact ⟨first, [], [], h⟩
  obtain ⟨first, base, idx, h⟩ := htracked
  obtain ⟨idx', horder, _⟩ := h.pushed hstream
  exact ⟨idx', horder⟩

/-- A message that ends with its packet is refused and accepted later. -/
theorem PgmLink.pushed_in_order_refused_once :
    ∃ s : PgmSender (List Message),
      Run PgmSender.outEvent PgmSender.Capacity
        (PgmSender.create [[10, 11, 12], [66]]) [⟨6, true⟩, ⟨6, true⟩] s ∧
      ∃ l : PgmLink (List Bool),
        Run PgmLink.step (PgmLink.Roomy s.pulled)
          (PgmLink.start s.packets 0 [false]) [.packet, .packet] l ∧
        l.receiver.pushed = [[10, 11, 12], [66]] ∧
        ∃ idx, InOrder s.pulled l.receiver.pushed l.receiver.gaps idx := by
  refine Run.exists_of_exec
    (P := fun s => s.packets = [[0, 0, 3, 10, 11, 12], [0, 0, 1, 66]] ∧
      s.pulled = [[10, 11, 12], [66]]) (by decide +kernel) ?_
  rintro s hsend ⟨hpackets, hpulled⟩
  have horder := pushed_in_order _ _ s hsend (by rw [hpulled]; decide) [false] 0
  rw [hpackets, hpulled] at horder ⊢
  exact Run.exists_of_exec (by decide +kernel)
    fun l hrun hl => ⟨hl, horder _ l hrun⟩

/-- A message is refused in the middle of its packet.  The rest of the packet is
lost without a gap, and the receiver pushes a message made of the body of
another one. -/
theorem PgmLink.refusal_corrupts :
    ∃ (s : PgmSender (List Message)) (l : PgmLink (List Bool)),
      Run PgmSender.outEvent PgmSender.Capacity
        (PgmSender.create ([[10], [7, 1, 66], [5]] : List Message))
        [⟨6, true⟩, ⟨6, false⟩, ⟨6, true⟩] s ∧
      Run PgmLink.step Any (PgmLink.start s.packets 0 [false])
        [.packet, .packet] l ∧
      l.receiver.pushed = [[10], [66], [5]] ∧ l.receiver.gaps = [] ∧
      ¬ ∃ idx, InOrder s.pulled l.receiver.pushed l.receiver.gaps idx := by
  obtain ⟨s, hsend, hpackets, hpulled⟩ := packets_of_three_messages
  have hexec : (exec PgmLink.step Any
      (PgmLink.start [[0, 0, 1, 10, 3, 7], [0, 2, 1, 66, 1, 5]] 0 [false])
      [.packet, .packet]).any (fun l => decide
        (l.receiver.pushed = [[10], [66], [5]] ∧ l.receiver.gaps = [])) =
      true := by
    decide +kernel
  obtain ⟨l, hrun, hpushed, hgaps⟩ := Run.of_exec_any hexec
  rw [← hpackets] at hrun
  refine ⟨s, l, hsend, hrun, hpushed, hgaps, ?_⟩
  rintro ⟨idx, horder⟩
  have hmem := horder.mem_sent (m := [66]) (by rw [hpushed]; decide)
  rw [hpulled] at hmem
  revert hmem
  decide

end ZeroMQ
