import ZeroMQ.Codec.RoundTrip
import ZeroMQ.Lib.Run
import ZeroMQ.Message.Raw

/-!
# The memory `bp_decoder_t` reads a message into

`bp_decoder_t` allocates a message of the size it finds on the wire and has
`decoder_t::write` copy the body to it (`libzmq/bp_decoder.cpp`,
`libzmq/zmq/decoder.hpp`).  `raw_message_init` adds the size of a
`message_content_t` to it before it calls `malloc`, and nothing bounds the
eight-byte size, so that the sum may wrap around.

Here `write` is cut into its pieces, the copies and the actions, so that every
moment at which a body is read is a state of a run.  `space` is what `malloc`
has given to the data of the message; `seen` and `base` are histories: the
bytes received since the last `reset`, and the messages pushed before it.

## Main results

* `write_moves` — a call of `write` is a run of copies and actions.
* `message_space_iff` — whenever a body is read, its length is the size
  announced on the wire, and it fits the memory exactly if the size of the
  allocation does not wrap.
-/

namespace ZeroMQ

open ZeroMQ.Lib

/-! ## Allocation -/

/-- `sizeof (message_content_t)`: three words and a counter of 32 bits. -/
def sizeofMessageContent : Nat := 32

/-- The argument of `malloc` in `raw_message_init`, a `size_t`. -/
def allocationSize (size : Nat) : Nat := u64 (sizeofMessageContent + size)

/-- The bytes from `raw_message_data` to the end of the memory that
`raw_message_init` has allocated. -/
def dataSpace (size : Nat) : Nat :=
  if size ≤ maxVsmSize then maxVsmSize
  else allocationSize size - sizeofMessageContent

/-- The data fit their memory exactly if the size of the allocation does not
wrap. -/
theorem le_dataSpace_iff {size : Nat} (hsize : size < 2 ^ 64) :
    size ≤ dataSpace size ↔ sizeofMessageContent + size < 2 ^ 64 := by
  by_cases hvsm : size ≤ maxVsmSize
  · have hmax : maxVsmSize = 30 := rfl
    have hcontent : sizeofMessageContent = 32 := rfl
    rw [dataSpace, if_pos hvsm]
    omega
  · rw [dataSpace, if_neg hvsm]
    unfold allocationSize u64 sizeofMessageContent
    unfold maxVsmSize at hvsm
    omega

theorem BpSize.lt {header : List UInt8} {size : Nat} (h : BpSize header size) :
    size < 2 ^ 64 := by
  cases h with
  | short b hb =>
      have := b.toNat_lt
      omega
  | long bytes hlen => exact (getUint64 bytes).toNat_lt

/-! ## The pieces of `write` -/

/-- The decoder with the memory of its message. -/
structure Filling (δ : Type) where
  decoder : BpDecoder δ
  space : Nat
  seen : List UInt8
  base : List Message

/-- The pieces of `write`, the call of `reset`, and any change to the pipes
behind the demux.  `memory` tells whether `malloc` has succeeded. -/
inductive FillingAct (δ : Type) where
  | copy (bytes : List UInt8)
  | act (memory : Bool)
  | reset
  | pipes (demux : δ)

namespace Filling

variable {δ : Type} [IDemux δ]

/-- A new decoder; its message is empty. -/
def create (demux : δ) : Filling δ :=
  { decoder := .create demux, space := dataSpace 0, seen := [], base := [] }

/-- The memory of the message after an action: a body that is to be read has
been allocated, a message that was pushed is empty. -/
def spaceAfter (memory : Bool) (toRead : Nat) (next : BpDecoderState)
    (space : Nat) : Option Nat :=
  match next with
  | .messageReady =>
      -- `errno_assert` after `malloc`
      if toRead ≤ maxVsmSize ∨ memory then some (dataSpace toRead) else none
  | .oneByteSizeReady => some (dataSpace 0)
  | .eightByteSizeReady => some space

theorem spaceAfter_isSome (toRead : Nat) (next : BpDecoderState)
    (space : Nat) : ∃ space', spaceAfter true toRead next space = some space' := by
  cases next with
  | oneByteSizeReady => exact ⟨_, rfl⟩
  | eightByteSizeReady => exact ⟨_, rfl⟩
  | messageReady => exact ⟨dataSpace toRead, by simp [spaceAfter]⟩

/-- One piece. -/
def step (s : Filling δ) : FillingAct δ → Option (Filling δ)
  | .copy bytes =>
      if bytes.length ≤ s.decoder.toRead then
        some { s with
          decoder := s.decoder.copy bytes
          seen := s.seen ++ bytes }
      else none
  | .act memory =>
      if s.decoder.toRead = 0 then
        match BpDecoder.action s.decoder.next s.decoder.buf
          s.decoder.derived with
        | (none, derived) =>
            some { s with decoder := { s.decoder with derived := derived } }
        | (some (toRead, next), derived) =>
            (spaceAfter memory toRead next s.space).map fun space =>
              { s with
                decoder := Decoder.nextStep toRead next derived
                space := space }
      else none
  | .reset =>
      some
        { decoder := s.decoder.reset
          space := dataSpace 0
          seen := []
          base := s.decoder.derived.pushed }
  | .pipes demux =>
      some { s with
        decoder :=
          { s.decoder with derived := { s.decoder.derived with demux := demux } } }

/-- The bytes received are frames, and the memory of a message is what was
allocated for its size. -/
structure Inv (s : Filling δ) : Prop where
  parsed : BpDecoder.Parsed s.base s.decoder s.seen
  space : s.decoder.next = .messageReady →
    s.space = dataSpace (s.decoder.buf.length + s.decoder.toRead)

variable {s s' : Filling δ} {a : FillingAct δ} {as : List (FillingAct δ)}

theorem Inv.step (h : Inv s) (hs : s.step a = some s') : Inv s' := by
  cases a with
  | copy bytes =>
      rw [Filling.step] at hs
      split at hs
      · next hle =>
          cases hs
          refine ⟨h.parsed.copy hle, fun hnext => ?_⟩
          show s.space = dataSpace ((s.decoder.buf ++ bytes).length +
            (s.decoder.toRead - bytes.length))
          rw [h.space hnext, List.length_append]
          congr 1
          omega
      · cases hs
  | act memory =>
      rw [Filling.step] at hs
      split at hs
      · next hzero =>
          split at hs
          · next derived hact =>
              cases hs
              exact ⟨h.parsed.stop hact, h.space⟩
          · next toRead next derived hact =>
              obtain ⟨space, hspace, rfl⟩ := Option.map_eq_some_iff.mp hs
              refine ⟨h.parsed.step hzero hact, fun hnext => ?_⟩
              have hnext : next = .messageReady := hnext
              subst hnext
              show space = dataSpace (([] : List UInt8).length + toRead)
              simp only [spaceAfter, Option.ite_none_right_eq_some,
                Option.some.injEq] at hspace
              rw [← hspace.2, List.length_nil, Nat.zero_add]
      · cases hs
  | reset =>
      cases hs
      exact ⟨BpDecoder.Parsed.of_initial ⟨rfl, rfl, rfl⟩,
        nofun⟩
  | pipes demux =>
      cases hs
      exact ⟨h.parsed.derived rfl, h.space⟩

theorem Inv.run {demux : δ} {ok : Filling δ → FillingAct δ → Prop}
    (hrun : Run Filling.step ok (.create demux) as s) : Inv s :=
  hrun.invariant (fun _ _ _ h _ hs => h.step hs)
    ⟨BpDecoder.Parsed.of_initial ⟨rfl, rfl, rfl⟩, nofun⟩

/-! ## `write` -/

/-- A call of `write` that does not run out of memory is a run of copies and
actions. -/
theorem write_moves (s : Filling δ) (data : List UInt8) :
    ∃ as s', Run Filling.step Any s as s' ∧
      s'.decoder = (s.decoder.write data).1 ∧
      s'.seen = s.seen ++ data.take (s.decoder.write data).2 ∧
      s'.base = s.base := by
  refine Decoder.write_invariant
    (I := fun d seen => ∃ as s', Run Filling.step Any s as s' ∧
      s'.decoder = d ∧ s'.seen = seen ∧ s'.base = s.base)
    ?_ ?_ ?_ s.decoder data s.seen ⟨[], s, .nil s, rfl, rfl, rfl⟩
  · rintro d seen bytes ⟨as, t, hrun, rfl, rfl, hbase⟩ hle
    have hs : t.step (.copy bytes) = some { t with
        decoder := t.decoder.copy bytes
        seen := t.seen ++ bytes } := by
      rw [Filling.step, if_pos hle]
    exact ⟨_, _, hrun.snoc trivial hs, rfl, rfl, hbase⟩
  · rintro d seen toRead next derived ⟨as, t, hrun, rfl, rfl, hbase⟩ hzero hact
    change BpDecoder.action t.decoder.next t.decoder.buf t.decoder.derived =
      (some (toRead, next), derived) at hact
    obtain ⟨space, hspace⟩ := spaceAfter_isSome toRead next t.space
    have hs : t.step (.act true) = some { t with
        decoder := Decoder.nextStep toRead next derived
        space := space } := by
      rw [Filling.step, if_pos hzero, hact]
      simp only [hspace, Option.map_some]
    exact ⟨_, _, hrun.snoc trivial hs, rfl, rfl, hbase⟩
  · rintro d seen derived ⟨as, t, hrun, rfl, rfl, hbase⟩ hzero hact
    change BpDecoder.action t.decoder.next t.decoder.buf t.decoder.derived =
      (none, derived) at hact
    have hs : t.step (.act true) = some { t with
        decoder := { t.decoder with derived := derived } } := by
      rw [Filling.step, if_pos hzero, hact]
    exact ⟨_, _, hrun.snoc trivial hs, rfl, rfl, hbase⟩

end Filling

/-- **The memory of a message.**  For all bytes received, in whatever pieces,
and whatever the pipes do: whenever a body is read, the bytes received are the
frames of the messages pushed and a size field, and what has been and is to be
read is the size announced there; and it fits the memory exactly if the size
of the allocation does not wrap. -/
theorem message_space_iff {δ : Type} [IDemux δ] {demux : δ}
    {as : List (FillingAct δ)} {s : Filling δ}
    (hrun : Run Filling.step Any (.create demux) as s)
    (hbody : s.decoder.next = .messageReady) :
    ∃ frames ms header size,
      s.seen = frames ++ (header ++ s.decoder.buf) ∧
      BpFramed frames ms ∧ s.decoder.derived.pushed = s.base ++ ms ∧
      BpSize header size ∧
      s.decoder.buf.length + s.decoder.toRead = size ∧
      (s.decoder.buf.length + s.decoder.toRead ≤ s.space ↔
        sizeofMessageContent + size < 2 ^ 64) := by
  have hinv := Filling.Inv.run hrun
  obtain ⟨frames, ms, rest, hseen, hpushed, hframed, hrest⟩ := hinv.parsed
  cases hrest with
  | size hnext hlen =>
      rw [hbody] at hnext
      cases hnext
  | longSize hnext hlen =>
      rw [hbody] at hnext
      cases hnext
  | @body header hnext hsize =>
      refine ⟨frames, ms, header, _, hseen, hframed, hpushed, hsize, rfl, ?_⟩
      rw [hinv.space hbody]
      exact le_dataSpace_iff hsize.lt

/-- A body of three bytes, one of which has been read. -/
theorem message_space_iff_three :
    ∃ s : Filling Unit,
      Run Filling.step Any (.create ())
        [.copy [3], .act true, .copy [7]] s ∧
      s.decoder.next = .messageReady ∧ s.decoder.toRead = 2 ∧
      s.decoder.buf.length + s.decoder.toRead ≤ s.space := by
  refine Run.exists_of_exec (P := fun s => s.decoder.next = .messageReady ∧
    s.decoder.toRead = 2 ∧ s.decoder.buf.length = 1) (by decide +kernel) ?_
  rintro s hrun ⟨hbody, hread, hbuf⟩
  obtain ⟨-, -, -, size, -, -, -, -, hsize, hfits⟩ :=
    message_space_iff hrun hbody
  refine ⟨hbody, hread, hfits.mpr ?_⟩
  rw [← hsize, hread, hbuf]
  decide

/-- The size `2^64 - 1` makes `malloc` allocate one byte less than a
`message_content_t`, and the decoder is about to read `2^64 - 1` bytes to the
memory behind it. -/
theorem message_space_wraps :
    ∃ s : Filling Unit,
      Run Filling.step Any (.create ())
        [.copy [0xff], .act true, .copy (List.replicate 8 0xff), .act true] s ∧
      s.decoder.next = .messageReady ∧ s.decoder.toRead = 2 ^ 64 - 1 ∧
      allocationSize s.decoder.toRead = 31 ∧ s.space = 0 :=
  Run.of_exec_any (by decide +kernel)

end ZeroMQ
