import ZeroMQ.Dam.Store
import ZeroMQ.Pipe.System

/-!
# A pipe is a FIFO, across main memory and swap file

Messages travel through two stores.  `write` switches to the swap file at the
high watermark and `swap_in` switches back when the file is drained, driven by
head reports that arrive late.  The order survives because `swapping` stays set
for as long as the swap file holds anything.

`terminate_writer` is the exception: it writes the delimiter straight into the
main memory, ahead of whatever is still in the swap file or delayed.

## Main results

* `FifoInv.step` — accepted messages are those stored in the main memory, then
  those in the swap file, then the delayed gap; in every run.
* `pipe_fifo` — before termination, the messages returned are a prefix of those
  written, and the rest is in exactly one store, main memory first.
* `delimiter_last_iff` — when the reader meets the delimiter, everything
  accepted has been returned exactly if `terminate_writer` found the swap file
  empty and no gap delayed.
-/

namespace ZeroMQ

open ZeroMQ.Lib

/-- A message the reader is to get, as opposed to the delimiter. -/
def RawMsg.payload {M : Type} (msg : RawMsg M) : Bool := !msg.isDelimiter

theorem RawMsg.payload_iff {M : Type} (msg : RawMsg M) :
    msg.payload = true ↔ msg ≠ .delimiter := by
  cases msg <;> simp [payload, isDelimiter]

namespace PipeSys

variable {M : Type}

/-- The gap that was announced and not written. -/
def pendingGap (p : Pipe M) : List (RawMsg M) :=
  if p.delayedGap then [.gap] else []

/-- Where the accepted messages are. -/
structure FifoInv (s : PipeSys M) : Prop where
  inRange : s.pipe.pipe.front ≤ s.pipe.pipe.slots.length
  returned : s.returned =
    (s.pipe.pipe.slots.take s.pipe.pipe.front).filter RawMsg.payload
  accepted : s.accepted =
    s.pipe.pipe.slots.filter RawMsg.payload ++ s.pipe.damMsgs ++
      pendingGap s.pipe
  damPayload : ∀ msg ∈ s.pipe.damMsgs, msg.payload = true
  swapCnt : s.pipe.inSwapMsgCnt = s.pipe.damMsgs.length
  swapOff : s.pipe.swapping = false → s.pipe.damMsgs = []
  swapDam : s.pipe.swapping = true → s.pipe.dataDam.isSome = true

theorem FifoInv.start (src dst : EngineLimits)
    (room : List (RawMsg M) → RawMsg M → Bool) :
    FifoInv (start (Pipe.create src dst room)) := by
  have hdam := Pipe.damMsgs_create src dst room
  exact
    { inRange := Nat.le_refl _
      returned := rfl
      accepted := by
        simp only [PipeSys.start, hdam]
        rfl
      damPayload := by simp [PipeSys.start, hdam]
      swapCnt := by
        simp only [PipeSys.start, hdam]
        rfl
      swapOff := fun _ => hdam
      swapDam := by simp [PipeSys.start, Pipe.create] }

variable {s s' : PipeSys M} {a : PipeAct M} {msg : RawMsg M} {p : Pipe M}
  {w : WriterPc}

theorem FifoInv.congr (h : FifoInv s)
    (hslots : s'.pipe.pipe.slots = s.pipe.pipe.slots)
    (hfront : s'.pipe.pipe.front = s.pipe.pipe.front)
    (hdam : s'.pipe.dataDam = s.pipe.dataDam)
    (hcnt : s'.pipe.inSwapMsgCnt = s.pipe.inSwapMsgCnt)
    (hsw : s'.pipe.swapping = s.pipe.swapping)
    (hgap : s'.pipe.delayedGap = s.pipe.delayedGap)
    (hacc : s'.accepted = s.accepted) (hret : s'.returned = s.returned) :
    FifoInv s' := by
  have hmsgs : s'.pipe.damMsgs = s.pipe.damMsgs := by
    simp only [Pipe.damMsgs, hdam]
  exact
    { inRange := by rw [hslots, hfront]; exact h.inRange
      returned := by rw [hret, hslots, hfront]; exact h.returned
      accepted := by
        rw [hacc, hslots, hmsgs, pendingGap, hgap]
        exact h.accepted
      damPayload := by rw [hmsgs]; exact h.damPayload
      swapCnt := by rw [hcnt, hmsgs]; exact h.swapCnt
      swapOff := by rw [hsw, hmsgs]; exact h.swapOff
      swapDam := by rw [hsw, hdam]; exact h.swapDam }

/-- `write` puts the message behind everything accepted so far. -/
theorem FifoInv.write (h : FifoInv s) (hm : msg ≠ .delimiter)
    (hp : s.pipe.write msg = some p) :
    FifoInv
      { s with
        pipe := p
        writer := w
        accepted := s.accepted ++ [msg] } := by
  obtain ⟨hgap, hcase⟩ := Pipe.write_cases hp
  have hpay : msg.payload = true := (RawMsg.payload_iff msg).mpr hm
  have hpend : pendingGap s.pipe = [] := by simp [pendingGap, hgap]
  have hacc := h.accepted
  rw [hpend, List.append_nil] at hacc
  rcases hcase with ⟨d, hd, _, _, rfl⟩ | ⟨_, hsw, rfl⟩
  · have hdam : s.pipe.damMsgs = d.msgs := by simp [Pipe.damMsgs, hd]
    exact
      { inRange := h.inRange
        returned := h.returned
        accepted := by
          rw [hdam] at hacc
          simp [Pipe.damMsgs, pendingGap, hgap, hacc]
        damPayload := by
          intro m hmem
          rw [Pipe.damMsgs, List.mem_append, List.mem_singleton] at hmem
          rcases hmem with hmem | rfl
          · exact h.damPayload m (by rwa [hdam])
          · exact hpay
        swapCnt := by
          have hcnt := h.swapCnt
          rw [hdam] at hcnt
          simp [Pipe.damMsgs, hcnt]
        swapOff := by simp
        swapDam := by simp }
  · -- Off swapping the swap file is empty, so the main memory is the end.
    have hdam : s.pipe.damMsgs = [] := h.swapOff hsw
    rw [hdam, List.append_nil] at hacc
    have hdam' : (s.pipe.storeCore msg).damMsgs = [] := hdam
    have hpend' : pendingGap (s.pipe.storeCore msg) = [] := hpend
    have hrange := h.inRange
    exact
      { inRange := by
          simp only [Pipe.storeCore, Ypipe.write, List.length_append]
          omega
        returned := by
          simp only [Pipe.storeCore, Ypipe.write]
          rw [List.take_append_of_le_length hrange]
          exact h.returned
        accepted := by
          simp only [hdam', hpend', List.append_nil]
          simp [Pipe.storeCore, Ypipe.write, hacc, hpay]
        damPayload := by simp [hdam']
        swapCnt := by
          have hcnt := h.swapCnt
          rw [hdam] at hcnt
          simp only [hdam']
          exact hcnt
        swapOff := fun _ => hdam'
        swapDam := h.swapDam }

/-- A gap that cannot be written is remembered, once. -/
theorem FifoInv.gapDelayed (h : FifoInv s) :
    FifoInv
      { s with
        pipe := { s.pipe with delayedGap := true }
        accepted := s.announce } :=
  { h with
    accepted := by
      have hacc := h.accepted
      cases hg : s.pipe.delayedGap with
      | true =>
          simp only [pendingGap, hg, if_true] at hacc
          simp only [announce, hg, pendingGap, if_true]
          exact hacc
      | false =>
          simp only [pendingGap, hg, Bool.false_eq_true, if_false,
            List.append_nil] at hacc
          simp [announce, hg, pendingGap, hacc, Pipe.damMsgs] }

/-- `terminate_writer` stores the delimiter, which nobody is to get. -/
theorem FifoInv.storeDelimiter (h : FifoInv s) :
    FifoInv
      { s with
        pipe := { s.pipe with pipe := s.pipe.pipe.write .delimiter }
        writer := w } :=
  { h with
    inRange := by
      have hrange := h.inRange
      simp only [Ypipe.write, List.length_append]
      omega
    returned := by
      simp only [Ypipe.write]
      rw [List.take_append_of_le_length h.inRange]
      exact h.returned
    accepted := by
      have hacc := h.accepted
      simpa [Ypipe.write, RawMsg.payload, RawMsg.isDelimiter, Pipe.damMsgs,
        pendingGap] using hacc }

/-- What the loop of `swap_in` has done: some `k` oldest messages of the swap
file are now in the main memory. -/
theorem FifoInv.refill_eq {position : Nat} (h : FifoInv s)
    (hs : (s.pipe.moveHead position).wantsSwapIn = true)
    (hp : (s.pipe.moveHead position).refill s.pipe.inSwapMsgCnt = some p) :
    ∃ d k, s.pipe.swapping = true ∧ s.pipe.dataDam = some d ∧
      s.pipe.damMsgs = d.msgs ∧ d.msgs.length = s.pipe.inSwapMsgCnt ∧
      k ≤ s.pipe.inSwapMsgCnt ∧
      p = { s.pipe.moveHead position with
        pipe := { s.pipe.pipe with
          slots := s.pipe.pipe.slots ++ d.msgs.take k }
        dataDam := some { d with msgs := d.msgs.drop k }
        inCoreMsgCnt := (s.pipe.moveHead position).inCoreMsgCnt + k
        inSwapMsgCnt := s.pipe.inSwapMsgCnt - k } ∧
      (k = s.pipe.inSwapMsgCnt ∨
        sizeT s.pipe.hwm ≤ (s.pipe.moveHead position).inCoreMsgCnt + k) ∧
      (0 < k →
        (s.pipe.moveHead position).inCoreMsgCnt + k ≤ sizeT s.pipe.hwm) := by
  have hsw : s.pipe.swapping = true := by
    rw [Pipe.wantsSwapIn, Bool.and_eq_true] at hs
    exact hs.1
  obtain ⟨d, hd⟩ := Option.isSome_iff_exists.mp (h.swapDam hsw)
  have hdam : s.pipe.damMsgs = d.msgs := by simp [Pipe.damMsgs, hd]
  have hlen : d.msgs.length = s.pipe.inSwapMsgCnt := by
    rw [h.swapCnt, hdam]
  obtain ⟨k, hk, heq, hstop, hle⟩ :=
    Pipe.refill_spec s.pipe.inSwapMsgCnt (s.pipe.moveHead position) d hd hlen
  rw [hp, Option.some.injEq] at heq
  exact ⟨d, k, hsw, hd, hdam, hlen, hk, heq, hstop, hle⟩

/-- `swap_in` moves messages from the front of the swap file to the end of the
main memory: nothing changes its place in the order. -/
theorem FifoInv.refill {position : Nat} {toSource : List ToSource}
    (h : FifoInv s) (hs : (s.pipe.moveHead position).wantsSwapIn = true)
    (hp : (s.pipe.moveHead position).refill s.pipe.inSwapMsgCnt = some p) :
    FifoInv { s with pipe := p, writer := w, toSource := toSource } := by
  obtain ⟨d, k, hsw, hd, hdam, hlen, hk, rfl, _, _⟩ := h.refill_eq hs hp
  have hpay : ∀ m ∈ d.msgs, m.payload = true := by
    rw [← hdam]
    exact h.damPayload
  have htake : (d.msgs.take k).filter RawMsg.payload = d.msgs.take k :=
    List.filter_eq_self.mpr fun m hmem => hpay m (List.mem_of_mem_take hmem)
  exact
    { inRange := by
        have hrange := h.inRange
        simp only [List.length_append]
        omega
      returned := by
        simp only
        rw [List.take_append_of_le_length h.inRange]
        exact h.returned
      accepted := by
        have hacc := h.accepted
        rw [hdam] at hacc
        simp only [Pipe.moveHead, Pipe.damMsgs, List.filter_append, htake,
          List.append_assoc, List.take_append_drop]
        simpa [pendingGap] using hacc
      damPayload := fun m hmem => hpay m (List.mem_of_mem_drop hmem)
      swapCnt := by simp [Pipe.damMsgs, hlen]
      swapOff := fun hoff => by
        have hoff' : s.pipe.swapping = false := hoff
        rw [hsw] at hoff'
        cases hoff'
      swapDam := by simp }

/-- What follows a flush only clears `swapping`, over an empty swap file. -/
theorem FifoInv.afterFlush {k : AfterFlush} (h : FifoInv s)
    (hp : afterFlush s.pipe k = some p) :
    FifoInv { s with pipe := p, writer := w } := by
  rcases afterFlush_cases hp with
    ⟨_, rfl⟩ | ⟨_, _, rfl⟩ | ⟨_, _, hnil, rfl⟩ | ⟨_, rfl⟩
  · exact { h with }
  · exact { h with }
  · exact { h with swapOff := fun _ => hnil, swapDam := by simp }
  · exact { h with }

/-- Taking the front message appends it to what was returned, unless it is the
delimiter. -/
theorem FifoInv.pop (h : FifoInv s) (hl : s.pipe.pipe.load = some msg)
    (hpipe : s'.pipe.pipe = s.pipe.pipe.pop)
    (hdam : s'.pipe.dataDam = s.pipe.dataDam)
    (hcnt : s'.pipe.inSwapMsgCnt = s.pipe.inSwapMsgCnt)
    (hsw : s'.pipe.swapping = s.pipe.swapping)
    (hgap : s'.pipe.delayedGap = s.pipe.delayedGap)
    (hacc : s'.accepted = s.accepted)
    (hret : s'.returned = s.returned ++ [msg].filter RawMsg.payload) :
    FifoInv s' := by
  obtain ⟨hlt, hget⟩ := List.getElem?_eq_some_iff.mp hl
  -- Only `front` and `returned` differ from a state the invariant holds of.
  have hrest : FifoInv
      { s' with
        pipe := { s'.pipe with pipe := s.pipe.pipe }
        returned := s.returned } :=
    h.congr rfl rfl hdam hcnt hsw hgap hacc rfl
  exact
    { hrest with
      inRange := by
        rw [hpipe]
        exact hlt
      returned := by
        rw [hret, hpipe, Ypipe.pop, List.take_succ_eq_append_getElem hlt,
          List.filter_append, hget, ← h.returned]
      accepted := by
        rw [hpipe]
        exact hrest.accepted }

/-- Every step of either thread keeps the order. -/
theorem FifoInv.step (h : FifoInv s) (hs : Step s a s') : FifoInv s' := by
  cases hs with
  | write hw hd hm hp => exact h.write hm hp
  | flush hw hd => exact { h with }
  | gapWritten hw hd hc hp => exact h.write (by simp) hp
  | gapDelayed hw hd hc => exact h.gapDelayed
  | terminateWriterAgain hw hd ht => exact h
  | terminateWriter hw hd ht => exact h.storeDelimiter
  | headSwapIn hw hq hsw hp => exact h.refill hsw hp
  | head hw hq hsw hp =>
      rw [(Pipe.writeDelayedGap_cases hp).1]
      exact { h with }
  | terminatePipe hw hq hsrc hdst => exact { h with }
  | casNothing hw hu => exact { h with }
  | casFound hw hu hc => exact { h with }
  | casNull hw hu hc => exact { h with }
  | set hw => exact { h with }
  | sendRevive hw hsrc hdst => exact { h with }
  | resume hw hp => exact h.afterFlush hp
  | readDead hr hm hd ha => exact h
  | readPop hr hm hd ha hf => exact { h with }
  | readFetch hr hm hd ha hf => exact { h with }
  | fetchFound hr hf => apply h.congr <;> simp
  | fetchNone hr hf => apply h.congr <;> simp
  | die hr => exact { h with }
  | popDelimiterAgain hr hl ht | popDelimiter hr hl ht =>
      apply h.pop hl <;> simp [RawMsg.payload, RawMsg.isDelimiter]
  | popQuiet hr hl hm hc | popReport hr hl hm hc =>
      obtain ⟨head, rfl⟩ := Pipe.countRead_eq hc
      apply h.pop hl <;> simp [(RawMsg.payload_iff _).mpr hm]
  | revive hr hq ha => exact { h with }
  | terminateReaderAgain hr hm ht => exact { h with }
  | terminateReader hr hm ht => exact { h with }
  | terminatePipeAck hr hq hm => exact { h with }

/-! ## Where the delimiter is -/

/-- The delimiter has been written: `terminate_writer` has returned or is at
its flush. -/
def Closed (s : PipeSys M) : Prop :=
  s.pipe.writerTerminating = true ∨ s.writer.after = some .terminate

theorem Closed.writerTerminating (h : Closed s) (hw : s.writer = .idle) :
    s.pipe.writerTerminating = true := by
  rcases h with ht | hc
  · exact ht
  · simp [hw, WriterPc.after] at hc

theorem not_closed_of_idle (hw : s.writer = .idle)
    (ht : s.pipe.writerTerminating = false) : ¬ Closed s := by
  intro hc
  rw [hc.writerTerminating hw] at ht
  cases ht

/-- Apart from the delimiter, only messages are stored, and stored messages
stay where they are. -/
theorem FifoInv.slots_grow (h : FifoInv s) (hs : Step s a s')
    (hterm : a = .terminateWriter → s.pipe.writerTerminating = true) :
    ∃ tail, s'.pipe.pipe.slots = s.pipe.pipe.slots ++ tail ∧
      ∀ msg ∈ tail, msg.payload = true := by
  -- The slots change in `write`, `gap` and `swap_in` only.
  have hsame : s'.pipe.pipe.slots = s.pipe.pipe.slots →
      ∃ tail, s'.pipe.pipe.slots = s.pipe.pipe.slots ++ tail ∧
        ∀ msg ∈ tail, msg.payload = true :=
    fun heq => ⟨[], by simp [heq], by simp⟩
  have hwrite : ∀ {msg : RawMsg M} {p : Pipe M}, msg ≠ .delimiter →
      s.pipe.write msg = some p → ∃ tail,
        p.pipe.slots = s.pipe.pipe.slots ++ tail ∧
          ∀ m ∈ tail, m.payload = true := by
    intro msg p hm hp
    rcases (Pipe.write_cases hp).2 with ⟨d, _, _, _, rfl⟩ | ⟨_, _, rfl⟩
    · exact ⟨[], by simp, by simp⟩
    · refine ⟨[msg], rfl, ?_⟩
      intro m hmem
      rw [List.mem_singleton] at hmem
      rw [hmem]
      exact (RawMsg.payload_iff msg).mpr hm
  cases hs with
  | write hw hd hm hp => exact hwrite hm hp
  | gapWritten hw hd hc hp => exact hwrite (by simp) hp
  | terminateWriter hw hd ht =>
      rw [hterm rfl] at ht
      cases ht
  | headSwapIn hw hq hsw hp =>
      obtain ⟨d, k, _, _, hdam, _, _, rfl, _, _⟩ := h.refill_eq hsw hp
      refine ⟨d.msgs.take k, rfl, ?_⟩
      intro m hmem
      exact h.damPayload m (by rw [hdam]; exact List.mem_of_mem_take hmem)
  | head hw hq hsw hp =>
      rw [(Pipe.writeDelayedGap_cases hp).1] at hsame
      rw [(Pipe.writeDelayedGap_cases hp).1]
      exact hsame rfl
  | resume hw hp => exact hsame (by rw [(afterFlush_frame hp).1])
  | popQuiet hr hl hm hc | popReport hr hl hm hc =>
      obtain ⟨head, rfl⟩ := Pipe.countRead_eq hc
      exact hsame rfl
  | fetchFound hr hf => exact hsame (by simp)
  | fetchNone hr hf => exact hsame (by simp)
  | _ => exact hsame rfl

theorem Closed.step (h : Closed s) (hs : Step s a s') : Closed s' := by
  cases hs with
  | write hw hd hm hp | gapWritten hw hd hc hp =>
      left
      rw [(Pipe.write_frame hp).writerTerminating]
      exact h.writerTerminating hw
  | flush hw hd => exact .inl (h.writerTerminating hw)
  | terminateWriter hw hd ht => exact .inr rfl
  | headSwapIn hw hq hsw hp =>
      left
      rw [(Pipe.refill_frame _ hp).writerTerminating]
      exact h.writerTerminating hw
  | head hw hq hsw hp =>
      left
      rw [(Pipe.writeDelayedGap_cases hp).1]
      exact h.writerTerminating hw
  | casNothing hw hu
  | casFound hw hu hc
  | casNull hw hu hc
  | set hw
  | sendRevive hw hsrc hdst => exact h.imp id (by simp [hw, WriterPc.after])
  | resume hw hp =>
      left
      rcases afterFlush_cases hp with
        ⟨rfl, rfl⟩ | ⟨rfl, _, rfl⟩ | ⟨rfl, _, _, rfl⟩ | ⟨rfl, rfl⟩
      · simpa [Closed, hw, WriterPc.after] using h
      · simpa [Closed, hw, WriterPc.after] using h
      · simpa [Closed, hw, WriterPc.after] using h
      · rfl
  | popQuiet hr hl hm hc | popReport hr hl hm hc =>
      obtain ⟨head, rfl⟩ := Pipe.countRead_eq hc
      exact h
  | _ => exact h

/-- Before `terminate_writer` there is no delimiter in the pipe. -/
theorem no_delimiter_step (hfifo : FifoInv s)
    (h : Closed s ∨ ∀ msg ∈ s.pipe.pipe.slots, msg.payload = true)
    (hs : Step s a s') :
    Closed s' ∨ ∀ msg ∈ s'.pipe.pipe.slots, msg.payload = true := by
  rcases h with h | h
  · exact .inl (h.step hs)
  · by_cases hterm : a = .terminateWriter ∧ s.pipe.writerTerminating = false
    · left
      obtain ⟨rfl, ht⟩ := hterm
      cases hs with
      | terminateWriterAgain hw hd ht' => simp [ht] at ht'
      | terminateWriter hw hd ht' => exact .inr rfl
    · right
      obtain ⟨tail, hslots, htail⟩ := hfifo.slots_grow hs fun ha => by
        simpa [ha] using hterm
      intro msg hmem
      rw [hslots, List.mem_append] at hmem
      rcases hmem with hmem | hmem
      · exact h msg hmem
      · exact htail msg hmem

/-- The slots of a pipe whose delimiter went to slot `before.length`. -/
structure Delimited (before : List (RawMsg M)) (s : PipeSys M) : Prop where
  closed : Closed s
  slots : ∃ tail, s.pipe.pipe.slots = before ++ .delimiter :: tail ∧
    ∀ msg ∈ tail, msg.payload = true

theorem Delimited.step {before : List (RawMsg M)} (hfifo : FifoInv s)
    (h : Delimited before s) (hs : Step s a s') : Delimited before s' := by
  refine ⟨h.closed.step hs, ?_⟩
  have hterm : a = .terminateWriter → s.pipe.writerTerminating = true := by
    rintro rfl
    cases hs with
    | terminateWriterAgain hw hd ht => exact ht
    | terminateWriter hw hd ht => exact h.closed.writerTerminating hw
  obtain ⟨tail, hslots, htail⟩ := h.slots
  obtain ⟨more, hmore, hpay⟩ := hfifo.slots_grow hs hterm
  refine ⟨tail ++ more, by simp [hmore, hslots], ?_⟩
  intro msg hmem
  rcases List.mem_append.mp hmem with hmem | hmem
  · exact htail msg hmem
  · exact hpay msg hmem

/-- The only delimiter is the one `terminate_writer` wrote. -/
theorem Delimited.front_eq {before : List (RawMsg M)}
    (h : Delimited before s)
    (hbefore : ∀ msg ∈ before, msg.payload = true)
    (hl : s.pipe.pipe.load = some .delimiter) :
    s.pipe.pipe.front = before.length := by
  obtain ⟨tail, hslots, htail⟩ := h.slots
  have hnot : ¬ (RawMsg.delimiter : RawMsg M).payload = true := by
    simp [RawMsg.payload, RawMsg.isDelimiter]
  rw [Ypipe.load, hslots] at hl
  rcases Nat.lt_trichotomy s.pipe.pipe.front before.length with hlt | heq | hgt
  · rw [List.getElem?_append_left hlt] at hl
    exact absurd (hbefore _ (List.mem_of_getElem? hl)) hnot
  · exact heq
  · rw [List.getElem?_append_right (by omega)] at hl
    obtain ⟨i, hi⟩ : ∃ i, s.pipe.pipe.front - before.length = i + 1 :=
      ⟨s.pipe.pipe.front - before.length - 1, by omega⟩
    rw [hi, List.getElem?_cons_succ] at hl
    exact absurd (htail _ (List.mem_of_getElem? hl)) hnot

/-! ## Traffic -/

/-- Ordinary traffic, before any termination is started: messages are written
when `check_write` allows it, flushed and read, and `head` and `revive`
commands are executed. -/
def Traffic (s : PipeSys M) : PipeAct M → Prop
  | .write _ => s.pipe.checkWrite = true
  | .gap => False
  | .terminateWriter => False
  | .terminatePipe => False
  | .terminateReader => False
  | .terminatePipeAck => False
  | _ => True

instance (s : PipeSys M) (a : PipeAct M) : Decidable (Traffic s a) := by
  cases a <;> unfold Traffic <;> infer_instance

/-- Traffic with gaps: `gap` is called at any time. -/
def Flowing (s : PipeSys M) : PipeAct M → Prop
  | .write _ => s.pipe.checkWrite = true
  | .terminateWriter => False
  | .terminatePipe => False
  | .terminateReader => False
  | .terminatePipeAck => False
  | _ => True

instance (s : PipeSys M) (a : PipeAct M) : Decidable (Flowing s a) := by
  cases a <;> unfold Flowing <;> infer_instance

theorem Traffic.flowing (h : Traffic s a) : Flowing s a := by
  cases a <;> first | exact h | trivial

/-- Before any termination is started, the pipe is listed at the writer's end
and holds no delimiter. -/
structure LineInv (s : PipeSys M) : Prop where
  fifo : FifoInv s
  inDemux : s.inDemux = true
  payload : ∀ msg ∈ s.pipe.pipe.slots, msg.payload = true

theorem LineInv.start (src dst : EngineLimits)
    (room : List (RawMsg M) → RawMsg M → Bool) :
    LineInv (start (Pipe.create src dst room)) where
  fifo := FifoInv.start src dst room
  inDemux := rfl
  payload := by simp [PipeSys.start, Pipe.create, Ypipe.create]

theorem LineInv.step (h : LineInv s) (hok : Flowing s a) (hs : Step s a s') :
    LineInv s' := by
  obtain ⟨tail, hslots, htail⟩ := h.fifo.slots_grow hs fun ha => by
    rw [ha] at hok
    exact hok.elim
  exact
    { fifo := h.fifo.step hs
      inDemux := by
        cases hs with
        | terminatePipe hw hq hsrc hdst => exact hok.elim
        | _ => exact h.inDemux
      payload := by
        intro msg hmem
        rw [hslots, List.mem_append] at hmem
        rcases hmem with hmem | hmem
        · exact h.payload msg hmem
        · exact htail msg hmem }

/-- Without delimiters, what was accepted and not returned is in the main memory,
then in the swap file, and last comes the delayed gap. -/
theorem LineInv.accepted_eq (h : LineInv s) :
    s.accepted = s.returned ++ s.pipe.coreMsgs ++ s.pipe.damMsgs ++
      pendingGap s.pipe := by
  have hslots : s.pipe.pipe.slots.filter RawMsg.payload =
      s.pipe.pipe.slots := List.filter_eq_self.mpr h.payload
  have htake : (s.pipe.pipe.slots.take s.pipe.pipe.front).filter
      RawMsg.payload = s.pipe.pipe.slots.take s.pipe.pipe.front :=
    List.filter_eq_self.mpr fun msg hmem =>
      h.payload msg (List.mem_of_mem_take hmem)
  rw [h.fifo.returned, htake, Pipe.coreMsgs, List.take_append_drop,
    h.fifo.accepted, hslots]

theorem LineInv.load_ne_delimiter (h : LineInv s) :
    s.pipe.pipe.load ≠ some .delimiter := by
  intro hl
  have hpay := h.payload _ (List.mem_of_getElem? hl)
  simp [RawMsg.payload, RawMsg.isDelimiter] at hpay

/-- What holds under traffic, on top of the order. -/
structure OpenInv (s : PipeSys M) : Prop where
  fifo : FifoInv s
  inDemux : s.inDemux = true
  gap : s.pipe.delayedGap = false
  payload : ∀ msg ∈ s.pipe.pipe.slots, msg.payload = true

theorem OpenInv.start (src dst : EngineLimits)
    (room : List (RawMsg M) → RawMsg M → Bool) :
    OpenInv (start (Pipe.create src dst room)) where
  fifo := FifoInv.start src dst room
  inDemux := rfl
  gap := rfl
  payload := by simp [PipeSys.start, Pipe.create, Ypipe.create]

theorem OpenInv.line (h : OpenInv s) : LineInv s := { h with }

/-- The high watermark is fixed, and only `gap` announces a gap. -/
theorem Step.frame (hs : Step s a s') : s'.pipe.hwm = s.pipe.hwm ∧
    (a ≠ .gap → s'.pipe.delayedGap = s.pipe.delayedGap) := by
  cases hs with
  | write hw hd hm hp | gapWritten hw hd hc hp =>
      have hframe := Pipe.write_frame hp
      exact ⟨hframe.hwm, fun _ => hframe.delayedGap⟩
  | gapDelayed hw hd hc => exact ⟨rfl, fun ha => (ha rfl).elim⟩
  | headSwapIn hw hq hsw hp =>
      have hframe := Pipe.refill_frame _ hp
      exact ⟨hframe.hwm, fun _ => hframe.delayedGap⟩
  | head hw hq hsw hp =>
      rw [(Pipe.writeDelayedGap_cases hp).1]
      exact ⟨rfl, fun _ => rfl⟩
  | resume hw hp =>
      rcases afterFlush_cases hp with
        ⟨_, rfl⟩ | ⟨_, _, rfl⟩ | ⟨_, _, _, rfl⟩ | ⟨_, rfl⟩ <;>
      exact ⟨rfl, fun _ => rfl⟩
  | popQuiet hr hl hm hc | popReport hr hl hm hc =>
      obtain ⟨head, rfl⟩ := Pipe.countRead_eq hc
      exact ⟨rfl, fun _ => rfl⟩
  | _ => exact ⟨rfl, fun _ => rfl⟩

theorem OpenInv.step (h : OpenInv s) (hok : Traffic s a) (hs : Step s a s') :
    OpenInv s' :=
  have hgap := hs.frame.2 (by rintro rfl; exact hok)
  { h.line.step hok.flowing hs with gap := hgap.trans h.gap }

theorem OpenInv.run {src dst : EngineLimits}
    {room : List (RawMsg M) → RawMsg M → Bool} {as : List (PipeAct M)}
    (h : Run PipeSys.step Traffic
      (PipeSys.start (Pipe.create src dst room)) as s) : OpenInv s :=
  invariant_of_step (fun _ _ _ hI hok hs => OpenInv.step hI hok hs) h
    (OpenInv.start src dst room)

/-- Without delimiters and delayed gaps, what was accepted and not returned is
in the main memory, then in the swap file. -/
theorem OpenInv.accepted_eq (h : OpenInv s) :
    s.accepted = s.returned ++ s.pipe.coreMsgs ++ s.pipe.damMsgs := by
  rw [h.line.accepted_eq]
  simp [pendingGap, h.gap]

theorem OpenInv.write_isSome (h : OpenInv s) (hw : s.writer = .idle)
    (hm : msg ≠ .delimiter) (hc : s.pipe.checkWrite = true)
    (hr : ∀ d, s.pipe.dataDam = some d → d.room d.msgs msg = true) :
    (s.step (.write msg)).isSome = true := by
  have hsome := Pipe.write_isSome h.gap hc h.fifo.swapDam hr
  obtain ⟨p, hp⟩ := Option.isSome_iff_exists.mp hsome
  have hnd : ¬ msg.isDelimiter = true := by
    rw [RawMsg.isDelimiter_iff]
    exact hm
  simp [PipeSys.step, writerStep, hw, h.inDemux, hnd, hp]

/-- **FIFO.**  For every pair of engines, with or without swap, and for every
interleaving of the writer's and the reader's traffic: what `read` has returned
is a prefix of what was passed to `write`; the rest is in the `ypipe_t` and in
the data dam, the older part in the `ypipe_t`; and a write that `check_write`
allows is carried out as long as the swap file has room. -/
theorem pipe_fifo {src dst : EngineLimits}
    {room : List (RawMsg M) → RawMsg M → Bool} {as : List (PipeAct M)}
    (h : Run step Traffic (PipeSys.start (Pipe.create src dst room)) as s) :
    s.returned <+: s.accepted ∧
    s.accepted = s.returned ++ s.pipe.coreMsgs ++ s.pipe.damMsgs ∧
    (∀ msg, s.writer = .idle → msg ≠ .delimiter → s.pipe.checkWrite = true →
      (∀ d, s.pipe.dataDam = some d → d.room d.msgs msg = true) →
      (s.step (.write msg)).isSome = true) := by
  have hinv := OpenInv.run h
  have hacc := hinv.accepted_eq
  refine ⟨?_, hacc, fun msg hw hm hc hr => hinv.write_isSome hw hm hc hr⟩
  rw [hacc, List.append_assoc]
  exact List.prefix_append _ _

/-- Three messages through a pipe with room for one in the main memory. -/
theorem pipe_fifo_three_messages :
    ∃ s, Run step Traffic
        (PipeSys.start (Pipe.create ⟨1, 1, 20⟩ ⟨0, 0, 0⟩ (damRoom 20)))
        [.write (.data [1]), .write (.data [2]), .write (.data [3]), .flush,
          .cas, .resume, .read, .fetch, .pop, .head, .cas, .resume] s ∧
      s.pipe.coreMsgs = [.data [2]] ∧ s.pipe.damMsgs = [.data [3]] ∧
      s.accepted = s.returned ++ s.pipe.coreMsgs ++ s.pipe.damMsgs :=
  Run.exists_of_exec (by decide +kernel)
    fun _ hrun hs => ⟨And.left hs, And.right hs, (pipe_fifo hrun).2.1⟩

/-! ## The delimiter -/

/-- **The delimiter is last exactly when nothing was held back.**  Take any run
to a first `terminate_writer`, and any continuation to a point where `read` has
the delimiter in front of it.  Everything accepted before `terminate_writer` has
been returned by then if and only if `terminate_writer` found the data dam
empty and no gap delayed. -/
theorem delimiter_last_iff {src dst : EngineLimits}
    {room : List (RawMsg M) → RawMsg M → Bool}
    {as bs : List (PipeAct M)} {t t' : PipeSys M}
    (h : Run step Any (PipeSys.start (Pipe.create src dst room)) as t)
    (hfirst : t.pipe.writerTerminating = false)
    (hterm : t.step .terminateWriter = some t')
    (h' : Run step Any t' bs s)
    (hl : s.pipe.pipe.load = some .delimiter) :
    s.returned = t.accepted ↔
      t.pipe.damMsgs = [] ∧ t.pipe.delayedGap = false := by
  -- Up to `t` there is no delimiter.
  obtain ⟨hfifo, hopen⟩ : FifoInv t ∧
      (Closed t ∨ ∀ msg ∈ t.pipe.pipe.slots, msg.payload = true) :=
    invariant_of_step
      (I := fun s => FifoInv s ∧
        (Closed s ∨ ∀ msg ∈ s.pipe.pipe.slots, msg.payload = true))
      (fun _ _ _ hI _ hs => ⟨hI.1.step hs, no_delimiter_step hI.1 hI.2 hs⟩) h
      ⟨FifoInv.start src dst room,
        .inr (by simp [PipeSys.start, Pipe.create, Ypipe.create])⟩
  have hs := Step.of_step hterm
  cases hs with
  | terminateWriterAgain hw hd ht =>
      rw [hfirst] at ht
      cases ht
  | terminateWriter hw hd ht =>
      have hbefore : ∀ msg ∈ t.pipe.pipe.slots, msg.payload = true :=
        hopen.resolve_left (not_closed_of_idle hw hfirst)
      -- From then on the delimiter stays where it was put.
      obtain ⟨hfifo', hdel⟩ : FifoInv s ∧ Delimited t.pipe.pipe.slots s :=
        invariant_of_step
          (I := fun s => FifoInv s ∧ Delimited t.pipe.pipe.slots s)
          (fun _ _ _ hI _ hs => ⟨hI.1.step hs, hI.2.step hI.1 hs⟩) h'
          ⟨hfifo.storeDelimiter, .inr rfl, [], rfl, by simp⟩
      have hfront := hdel.front_eq hbefore hl
      obtain ⟨tail, hslots, _⟩ := hdel.slots
      have hret : s.returned = t.pipe.pipe.slots.filter RawMsg.payload := by
        rw [hfifo'.returned, hslots, hfront, List.take_left]
      rw [hret, hfifo.accepted, List.append_assoc, List.self_eq_append_right,
        List.append_eq_nil_iff]
      simp [pendingGap]

/-- A gap-free pipe without swap delivers everything before the delimiter. -/
theorem delimiter_last_without_swap :
    ∃ t t' s : PipeSys Nat,
      Run step Any
        (PipeSys.start (Pipe.create ⟨-1, 0, 0⟩ ⟨-1, 0, 0⟩ fun _ _ => true))
        [.write (.data 1), .flush, .cas, .resume] t ∧
      t.step .terminateWriter = some t' ∧
      Run step Any t' [.cas, .resume, .read, .fetch, .pop, .read] s ∧
      s.returned = t.accepted := by
  have hexec : (exec step Any
      (PipeSys.start (Pipe.create ⟨-1, 0, 0⟩ ⟨-1, 0, 0⟩ fun _ _ => true))
      [.write (.data 1), .flush, .cas, .resume]).any (fun t => decide
        ((t.step .terminateWriter).any (fun t' =>
          (exec step Any t' [.cas, .resume, .read, .fetch, .pop, .read]).any
            fun s => decide (t.pipe.writerTerminating = false ∧
              s.pipe.pipe.load = some (.delimiter : RawMsg Nat) ∧
              t.pipe.damMsgs = [] ∧ t.pipe.delayedGap = false)) = true)) =
      true := by
    decide +kernel
  obtain ⟨t, h, hP⟩ := Run.of_exec_any hexec
  obtain ⟨t', hterm, hP⟩ := (Option.any_eq_true _ _).mp hP
  obtain ⟨s, h', hfirst, hl, hempty⟩ := Run.of_exec_any hP
  exact ⟨t, t', s, h, hterm, h',
    (delimiter_last_iff h hfirst hterm h' hl).mpr hempty⟩

/-- With a high watermark of one message the second message goes to the data
dam.  `terminate_writer` writes the delimiter ahead of it, and the reader meets
the delimiter having returned the first message only. -/
theorem delimiter_overtakes_data_dam :
    ∃ t, Run step Any
        (PipeSys.start (Pipe.create ⟨1, 1, 20⟩ ⟨0, 0, 0⟩ (damRoom 20)))
        [.write (.data [1]), .write (.data [2]), .flush, .cas, .resume] t ∧
      t.pipe.writerTerminating = false ∧
      t.accepted = [.data [1], .data [2]] ∧
      ∃ t' s, t.step .terminateWriter = some t' ∧
        Run step Any t' [.cas, .resume, .read, .fetch, .pop, .read] s ∧
        s.reader = .pop ∧ s.pipe.pipe.load = some .delimiter ∧
        s.returned = [.data [1]] ∧ s.returned ≠ t.accepted := by
  refine Run.exists_of_exec (P := fun t =>
    t.pipe.writerTerminating = false ∧ t.accepted = [.data [1], .data [2]] ∧
    (t.step .terminateWriter).any (fun t' =>
      (exec step Any t' [.cas, .resume, .read, .fetch, .pop, .read]).any
        fun s => decide (s.reader = .pop ∧
          s.pipe.pipe.load = some .delimiter ∧ s.returned = [.data [1]])) =
      true) (by decide +kernel) ?_
  rintro t _ ⟨hfirst, hacc, hP⟩
  obtain ⟨t', hterm, hP⟩ := (Option.any_eq_true _ _).mp hP
  obtain ⟨s, h', hr, hl, hret⟩ := Run.of_exec_any hP
  refine ⟨hfirst, hacc, t', s, hterm, h', hr, hl, hret, ?_⟩
  rw [hacc, hret]
  decide

end PipeSys

end ZeroMQ
