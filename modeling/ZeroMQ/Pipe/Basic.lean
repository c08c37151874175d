import Mathlib.Algebra.Group.Int.Defs
import Mathlib.Algebra.Group.Nat.Defs
import ZeroMQ.Queue.Ypipe

/-!
# `pipe_t`

The one-way message pipe between two engines (`libzmq/pipe.cpp`,
`libzmq/zmq/pipe.hpp`): a `ypipe_t` created with `D = false`, watermarks, and
an optional `data_dam_t` that takes the messages beyond the high watermark.

Every operation that can fail an assertion, divide by zero or follow a null
pointer returns `Option`, with `none` for that failure.  The unsigned members
are numbers below `2^64` and wrap.  `in_swap_msg_cnt` is a plain number: the
swap file is at most `2^63` bytes long, with more than eight bytes for each
message.  `flush` and `read` touch the word shared by the two threads; their
pieces are put together in `ZeroMQ.Pipe.System`.

## Main results

* `write_cases` — a message goes to the main memory, or to the swap file once
  the high watermark is hit or the pipe is swapping.
* `refill_spec` — the loop of `swap_in` moves the oldest messages of the swap
  file, in order, until it is empty or the high watermark is hit.
-/

namespace ZeroMQ

/-- `raw_message_t` as a pipe sees it. -/
inductive RawMsg (M : Type) where
  | data (m : M)
  | gap
  | delimiter
  deriving DecidableEq, Repr

/-- `content == delimiter_tag`. -/
def RawMsg.isDelimiter {M : Type} : RawMsg M → Bool
  | .delimiter => true
  | _ => false

theorem RawMsg.isDelimiter_iff {M : Type} (msg : RawMsg M) :
    msg.isDelimiter = true ↔ msg = .delimiter := by
  cases msg <;> simp [isDelimiter]

/-- `uint64_t` arithmetic wraps. -/
def u64 (n : Nat) : Nat := n % 2 ^ 64

/-- The conversion of an `int64_t` to `uint64_t` or `size_t`. -/
def sizeT (n : Int) : Nat := (n % 2 ^ 64).toNat

/-- The conversion of a `size_t` to `int64_t`. -/
def int64 (n : Nat) : Int :=
  if n % 2 ^ 64 < 2 ^ 63 then (n % 2 ^ 64 : Nat)
  else (n % 2 ^ 64 : Nat) - 2 ^ 64

theorem u64_of_lt {n : Nat} (h : n < 2 ^ 64) : u64 n = n :=
  Nat.mod_eq_of_lt h

theorem sizeT_lt (n : Int) : sizeT n < 2 ^ 64 := by
  unfold sizeT
  omega

theorem int64_of_lt {n : Nat} (h : n < 2 ^ 63) : int64 n = n := by
  have hmod : n % 2 ^ 64 = n := Nat.mod_eq_of_lt (by omega)
  rw [int64, hmod, if_pos h]

/-- `data_dam_t`, taken as a FIFO of messages.  `room` tells whether the swap
file can take one more. -/
structure DataDam (M : Type) where
  room : List (RawMsg M) → RawMsg M → Bool
  msgs : List (RawMsg M)

namespace DataDam

variable {M : Type}

/-- `store`, `none` when it returns false. -/
def store (d : DataDam M) (msg : RawMsg M) : Option (DataDam M) :=
  if d.room d.msgs msg then some { d with msgs := d.msgs ++ [msg] } else none

/-- `fetch`; it asserts that there is a message. -/
def fetch (d : DataDam M) : Option (RawMsg M × DataDam M) :=
  match d.msgs with
  | [] => none
  | msg :: rest => some (msg, { d with msgs := rest })

def empty (d : DataDam M) : Bool := d.msgs.isEmpty

end DataDam

/-- What the constructor asks of each of the two engines: `get_watermarks` and
`get_swap_size`. -/
structure EngineLimits where
  hwm : Int
  lwm : Int
  swapSize : Int
  deriving DecidableEq, Repr

/-- The members of `pipe_t`.  `source` and `destination` tell whether the
pointers to the two engines and threads are still set. -/
structure Pipe (M : Type) where
  pipe : Ypipe (RawMsg M)
  source : Bool
  destination : Bool
  alive : Bool
  hwm : Int
  lwm : Int
  head : Nat
  lastHeadPosition : Nat
  delayedGap : Bool
  inCoreMsgCnt : Nat
  dataDam : Option (DataDam M)
  swapping : Bool
  inSwapMsgCnt : Nat
  writerTerminating : Bool
  readerTerminating : Bool

namespace Pipe

variable {M : Type}

/-- The constructor.  Watermarks are infinite when either engine's are, and
the sums of the two engines' otherwise. -/
def create (src dst : EngineLimits)
    (room : List (RawMsg M) → RawMsg M → Bool) : Pipe M :=
  { pipe := Ypipe.create false
    source := true
    destination := true
    alive := true
    hwm := if src.hwm = -1 ∨ dst.hwm = -1 then 0 else src.hwm + dst.hwm
    lwm := if src.hwm = -1 ∨ dst.hwm = -1 then 0 else src.lwm + dst.lwm
    head := 0
    lastHeadPosition := 0
    delayedGap := false
    inCoreMsgCnt := 0
    dataDam := if src.swapSize + dst.swapSize > 0 then some ⟨room, []⟩ else none
    swapping := false
    inSwapMsgCnt := 0
    writerTerminating := false
    readerTerminating := false }

/-- `check_write`. -/
def checkWrite (p : Pipe M) : Bool :=
  p.hwm = 0 || p.inCoreMsgCnt < sizeT p.hwm || p.dataDam.isSome

/-- The high watermark is hit: `in_core_msg_cnt == (size_t) hwm && hwm != 0`. -/
def full (p : Pipe M) : Bool :=
  p.inCoreMsgCnt = sizeT p.hwm && p.hwm != 0

/-- The branch of `write` that stores into the data dam. -/
def storeSwap (p : Pipe M) (msg : RawMsg M) : Option (Pipe M) :=
  p.dataDam.bind fun d => (d.store msg).map fun d' =>
    { p with
      swapping := true
      dataDam := some d'
      inSwapMsgCnt := p.inSwapMsgCnt + 1 }

/-- The branch of `write` that stores into the main memory. -/
def storeCore (p : Pipe M) (msg : RawMsg M) : Pipe M :=
  { p with
    pipe := p.pipe.write msg
    inCoreMsgCnt := u64 (p.inCoreMsgCnt + 1) }

/-- `write`. -/
def write (p : Pipe M) (msg : RawMsg M) : Option (Pipe M) :=
  if p.delayedGap then none
  else if p.full || p.swapping then p.storeSwap msg
  else some (p.storeCore msg)

/-- The loop of `swap_in`, by recursion on `in_swap_msg_cnt`. -/
def refill : Nat → Pipe M → Option (Pipe M)
  | 0, p => some { p with inSwapMsgCnt := 0 }
  | n + 1, p =>
      if p.inCoreMsgCnt < sizeT p.hwm then
        p.dataDam.bind fun d => d.fetch.bind fun (msg, d') =>
          refill n
            { p with
              pipe := p.pipe.write msg
              dataDam := some d'
              inCoreMsgCnt := u64 (p.inCoreMsgCnt + 1) }
      else some { p with inSwapMsgCnt := n + 1 }

/-- The end of `swap_in`, after its flush. -/
def swapInEnd (p : Pipe M) : Option (Pipe M) :=
  if p.inSwapMsgCnt = 0 then
    p.dataDam.bind fun d =>
      if d.empty then some { p with swapping := false } else none
  else some p

/-- The start of `set_head`: account for the messages read. -/
def moveHead (p : Pipe M) (position : Nat) : Pipe M :=
  { p with
    inCoreMsgCnt := u64 (p.inCoreMsgCnt +
      (2 ^ 64 - u64 (position + (2 ^ 64 - p.lastHeadPosition))))
    lastHeadPosition := position }

/-- `set_head` refills the main memory from the swap file. -/
def wantsSwapIn (p : Pipe M) : Bool :=
  p.swapping && p.inCoreMsgCnt < sizeT p.lwm

/-- The end of `set_head`: write the delayed gap notification. -/
def writeDelayedGap (p : Pipe M) : Option (Pipe M) :=
  if p.delayedGap && p.checkWrite then
    (p.write .gap).map fun p' => { p' with delayedGap := false }
  else some p

/-- `hwm - lwm + 1`, the number of messages read between two reports. -/
def period (p : Pipe M) : Nat := sizeT (p.hwm - p.lwm + 1)

/-- The end of `read`: count the message and tell whether `head` is to be
reported to the writer. -/
def countRead (p : Pipe M) : Option (Pipe M × Bool) :=
  if p.hwm = 0 then some (p, false)
  else if p.period = 0 then none
  else
    let head := u64 (p.head + 1)
    some ({ p with head := head }, head % p.period = 0)

/-- The contents of the swap file. -/
def damMsgs (p : Pipe M) : List (RawMsg M) :=
  match p.dataDam with
  | none => []
  | some d => d.msgs

/-- The messages in the main memory that the reader has not taken. -/
def coreMsgs (p : Pipe M) : List (RawMsg M) := p.pipe.slots.drop p.pipe.front

theorem damMsgs_create (src dst : EngineLimits)
    (room : List (RawMsg M) → RawMsg M → Bool) :
    (create src dst room).damMsgs = [] := by
  unfold damMsgs create
  by_cases hs : src.swapSize + dst.swapSize > 0
  · simp only [if_pos hs]
  · simp only [if_neg hs]

/-! ## `write` -/

variable {p p' : Pipe M} {msg : RawMsg M}

theorem storeSwap_eq_some (h : p.storeSwap msg = some p') :
    ∃ d, p.dataDam = some d ∧ d.room d.msgs msg = true ∧
      p' = { p with
        swapping := true
        dataDam := some { d with msgs := d.msgs ++ [msg] }
        inSwapMsgCnt := p.inSwapMsgCnt + 1 } := by
  unfold storeSwap at h
  cases hd : p.dataDam with
  | none => simp [hd] at h
  | some d =>
      by_cases hr : d.room d.msgs msg = true
      · refine ⟨d, rfl, hr, ?_⟩
        simpa [hd, DataDam.store, hr] using h.symm
      · simp [hd, DataDam.store, hr] at h

theorem write_cases (h : p.write msg = some p') :
    p.delayedGap = false ∧
      ((∃ d, p.dataDam = some d ∧ d.room d.msgs msg = true ∧
          (p.full = true ∨ p.swapping = true) ∧
          p' = { p with
            swapping := true
            dataDam := some { d with msgs := d.msgs ++ [msg] }
            inSwapMsgCnt := p.inSwapMsgCnt + 1 }) ∨
        (p.full = false ∧ p.swapping = false ∧ p' = p.storeCore msg)) := by
  unfold write at h
  by_cases hg : p.delayedGap = true
  · simp [hg] at h
  · rw [if_neg hg] at h
    refine ⟨by simpa using hg, ?_⟩
    by_cases hs : (p.full || p.swapping) = true
    · rw [if_pos hs] at h
      obtain ⟨d, hd, hr, hp⟩ := storeSwap_eq_some h
      exact .inl ⟨d, hd, hr, by simpa using hs, hp⟩
    · rw [if_neg hs, Option.some.injEq] at h
      have hn : p.full = false ∧ p.swapping = false := by simpa using hs
      exact .inr ⟨hn.1, hn.2, h.symm⟩

/-- A write that `check_write` allows fails only for want of room in the swap
file or because of a delayed gap. -/
theorem write_isSome (hg : p.delayedGap = false) (hc : p.checkWrite = true)
    (hs : p.swapping = true → p.dataDam.isSome = true)
    (hr : ∀ d, p.dataDam = some d → d.room d.msgs msg = true) :
    (p.write msg).isSome = true := by
  unfold write
  rw [hg, if_neg (by simp)]
  by_cases hf : (p.full || p.swapping) = true
  · rw [if_pos hf]
    have hd : p.dataDam.isSome = true := by
      by_cases hsw : p.swapping = true
      · exact hs hsw
      · have hfull : p.full = true := by simpa [hsw] using hf
        unfold full at hfull
        unfold checkWrite at hc
        simp_all
    obtain ⟨d, hd⟩ := Option.isSome_iff_exists.mp hd
    simp [storeSwap, hd, DataDam.store, hr d hd]
  · rw [if_neg hf]
    rfl

/-! ## `swap_in` -/

/-- The loop of `swap_in` moves some `k` oldest messages from the swap file to
the main memory, and stops when the file is empty or the high watermark is
hit. -/
theorem refill_spec (n : Nat) (p : Pipe M) (d : DataDam M)
    (hd : p.dataDam = some d) (hn : d.msgs.length = n) :
    ∃ k, k ≤ n ∧
      p.refill n = some { p with
        pipe := { p.pipe with slots := p.pipe.slots ++ d.msgs.take k }
        dataDam := some { d with msgs := d.msgs.drop k }
        inCoreMsgCnt := p.inCoreMsgCnt + k
        inSwapMsgCnt := n - k } ∧
      (k = n ∨ sizeT p.hwm ≤ p.inCoreMsgCnt + k) ∧
      (0 < k → p.inCoreMsgCnt + k ≤ sizeT p.hwm) := by
  induction n generalizing p d with
  | zero =>
      refine ⟨0, Nat.le_refl _, ?_, .inl rfl, by simp⟩
      have hnil : d.msgs = [] := List.length_eq_zero_iff.mp hn
      have hdam : p.dataDam = some { d with msgs := [] } := by
        rw [hd, ← hnil]
      simp [refill, hnil, hdam]
  | succ n ih =>
      by_cases hlt : p.inCoreMsgCnt < sizeT p.hwm
      · obtain ⟨msg, rest, hmsgs⟩ : ∃ msg rest, d.msgs = msg :: rest := by
          cases hm : d.msgs with
          | nil => simp [hm] at hn
          | cons msg rest => exact ⟨msg, rest, rfl⟩
        have hwrap : u64 (p.inCoreMsgCnt + 1) = p.inCoreMsgCnt + 1 := by
          apply u64_of_lt
          have := sizeT_lt p.hwm
          omega
        obtain ⟨k, hk, heq, hstop, hle⟩ := ih
          { p with
            pipe := p.pipe.write msg
            dataDam := some { d with msgs := rest }
            inCoreMsgCnt := p.inCoreMsgCnt + 1 }
          { d with msgs := rest } rfl (by simpa [hmsgs] using hn)
        refine ⟨k + 1, by omega, ?_, ?_, ?_⟩
        · simp only [refill, if_pos hlt, hd, hmsgs, DataDam.fetch,
            Option.bind_some, hwrap]
          rw [heq]
          simp [Ypipe.write, Nat.add_comm, Nat.add_left_comm]
        · rcases hstop with hk' | hk'
          · exact .inl (by omega)
          · refine .inr ?_
            have : sizeT p.hwm ≤ p.inCoreMsgCnt + 1 + k := hk'
            omega
        · intro _
          by_cases hk0 : 0 < k
          · have : p.inCoreMsgCnt + 1 + k ≤ sizeT p.hwm := hle hk0
            omega
          · omega
      · refine ⟨0, Nat.zero_le _, ?_, .inr (by omega), by simp⟩
        simp [refill, if_neg hlt, hd]

theorem swapInEnd_cases (h : p.swapInEnd = some p') :
    (p.inSwapMsgCnt ≠ 0 ∧ p' = p) ∨
      (p.inSwapMsgCnt = 0 ∧ p.damMsgs = [] ∧
        p' = { p with swapping := false }) := by
  unfold swapInEnd at h
  by_cases h0 : p.inSwapMsgCnt = 0
  · rw [if_pos h0] at h
    cases hd : p.dataDam with
    | none => simp [hd] at h
    | some d =>
        rw [hd, Option.bind_some] at h
        split at h
        · next he =>
            refine .inr ⟨h0, ?_, by simpa using h.symm⟩
            simpa [damMsgs, hd, DataDam.empty] using he
        · cases h
  · rw [if_neg h0, Option.some.injEq] at h
    exact .inl ⟨h0, h.symm⟩

/-! ## `set_head` -/

/-- `write` asserts that no gap is delayed, so `set_head` cannot write one: it
passes only when there is none or the pipe is still full. -/
theorem writeDelayedGap_cases (h : p.writeDelayedGap = some p') :
    p' = p ∧ (p.delayedGap && p.checkWrite) = false := by
  unfold writeDelayedGap at h
  by_cases hg : (p.delayedGap && p.checkWrite) = true
  · rw [if_pos hg] at h
    rw [Bool.and_eq_true] at hg
    simp [write, hg.1] at h
  · rw [if_neg hg, Option.some.injEq] at h
    exact ⟨h.symm, by simpa using hg⟩

/-! ## `read` -/

theorem countRead_cases {report : Bool}
    (h : p.countRead = some (p', report)) :
    (p.hwm = 0 ∧ p' = p ∧ report = false) ∨
      (p.hwm ≠ 0 ∧ p.period ≠ 0 ∧ p' = { p with head := u64 (p.head + 1) } ∧
        (report = true ↔ u64 (p.head + 1) % p.period = 0)) := by
  unfold countRead at h
  by_cases h0 : p.hwm = 0
  · rw [if_pos h0] at h
    cases h
    exact .inl ⟨h0, rfl, rfl⟩
  · by_cases hp : p.period = 0
    · rw [if_neg h0, if_pos hp] at h
      cases h
    · rw [if_neg h0, if_neg hp] at h
      cases h
      exact .inr ⟨h0, hp, rfl, by simp⟩

theorem countRead_eq {report : Bool} (h : p.countRead = some (p', report)) :
    ∃ head, p' = { p with head := head } := by
  rcases countRead_cases h with ⟨_, hp, _⟩ | ⟨_, _, hp, _⟩
  · exact ⟨p.head, hp⟩
  · exact ⟨_, hp⟩

/-! ## What the writer's operations leave alone -/

/-- The members no `write` and no `swap_in` changes. -/
structure Frame (p p' : Pipe M) : Prop where
  source : p'.source = p.source
  destination : p'.destination = p.destination
  alive : p'.alive = p.alive
  hwm : p'.hwm = p.hwm
  lwm : p'.lwm = p.lwm
  head : p'.head = p.head
  lastHeadPosition : p'.lastHeadPosition = p.lastHeadPosition
  delayedGap : p'.delayedGap = p.delayedGap
  writerTerminating : p'.writerTerminating = p.writerTerminating
  readerTerminating : p'.readerTerminating = p.readerTerminating

theorem write_frame (h : p.write msg = some p') : Frame p p' := by
  rcases (write_cases h).2 with ⟨d, _, _, _, rfl⟩ | ⟨_, _, rfl⟩
  · constructor <;> rfl
  · constructor <;> rfl

theorem refill_frame (n : Nat) (h : p.refill n = some p') : Frame p p' := by
  induction n generalizing p with
  | zero =>
      rw [refill] at h
      cases h
      constructor <;> rfl
  | succ n ih =>
      rw [refill] at h
      split at h
      · obtain ⟨d, _, h⟩ := Option.bind_eq_some_iff.mp h
        obtain ⟨⟨msg, d'⟩, _, h⟩ := Option.bind_eq_some_iff.mp h
        exact { ih h with }
      · cases h
        constructor <;> rfl

/-- `p'` has the `ypipe_t` of `p`, with messages stored beyond its
terminator. -/
def Extends (p p' : Pipe M) : Prop :=
  ∃ msgs, p'.pipe = { p.pipe with slots := p.pipe.slots ++ msgs }

theorem Extends.of_eq (hp : p'.pipe = p.pipe) : Extends p p' :=
  ⟨[], by simp [hp]⟩

theorem write_extends (h : p.write msg = some p') : Extends p p' := by
  rcases (write_cases h).2 with ⟨d, _, _, _, rfl⟩ | ⟨_, _, rfl⟩
  · exact .of_eq rfl
  · exact ⟨[msg], rfl⟩

theorem refill_extends (n : Nat) (h : p.refill n = some p') :
    Extends p p' := by
  induction n generalizing p with
  | zero =>
      rw [refill] at h
      cases h
      exact .of_eq rfl
  | succ n ih =>
      rw [refill] at h
      split at h
      · obtain ⟨d, _, h⟩ := Option.bind_eq_some_iff.mp h
        obtain ⟨⟨msg, d'⟩, _, h⟩ := Option.bind_eq_some_iff.mp h
        obtain ⟨msgs, hm⟩ := ih h
        exact ⟨msg :: msgs, by simpa [Ypipe.write] using hm⟩
      · cases h
        exact .of_eq rfl

end Pipe

end ZeroMQ
