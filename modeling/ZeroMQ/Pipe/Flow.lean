import ZeroMQ.Lib.Periodic
import ZeroMQ.Pipe.Fifo

/-!
# Watermark flow control

The reader reports its position once in `hwm - lwm + 1` messages; the writer
refills the main memory from the swap file when a report takes it below `lwm`.
The two periods meet because a full main memory loses exactly one period per
report.

Positions are 64-bit counters.  When the reader's counter wraps it reports
position zero whatever the period, so that one report covers fewer messages
than a period unless the period divides `2^64`.  A pipe that is swapping then
keeps room in its main memory, and can be left with messages in the swap file
that no later report brings back.

## Main results

* `FlowInv.step` — the counters and the reports under way, in every run.
* `flow_control_iff` — the flow control does its job in every state of a run
  exactly if no early report reaches the pipe while it is swapping.
* `flow_control_wedges` — a run in which one does.
-/

namespace ZeroMQ

open ZeroMQ.Lib

variable {n : Nat}

theorem sizeT_natCast (h : n < 2 ^ 64) : sizeT n = n := by
  unfold sizeT
  omega

namespace Pipe

variable {M : Type} {p : Pipe M}

theorem period_eq {hi lo : Nat} (hle : lo ≤ hi) (hhi : hi < 2 ^ 63)
    (hhwm : p.hwm = hi) (hlwm : p.lwm = lo) : p.period = hi - lo + 1 := by
  unfold period
  have hcast : p.hwm - p.lwm + 1 = ((hi - lo + 1 : Nat) : Int) := by
    rw [hhwm, hlwm]
    omega
  rw [hcast]
  apply sizeT_natCast
  omega

/-- The unsigned subtractions of `set_head` are exact on true positions. -/
theorem moveHead_inCoreMsgCnt {last k : Nat}
    (hlast : p.lastHeadPosition = u64 last) (hle : last ≤ k)
    (hcore : k - last ≤ p.inCoreMsgCnt) (hlt : p.inCoreMsgCnt < 2 ^ 64) :
    (p.moveHead (u64 k)).inCoreMsgCnt = p.inCoreMsgCnt - (k - last) := by
  unfold moveHead
  simp only [hlast, u64]
  omega

end Pipe

namespace PipeSys

variable {M : Type} {s s' : PipeSys M} {a : PipeAct M}

/-! ## The counters -/

/-- The counters of a pipe with watermarks `hi` and `lo`, and the reports under
way.  `last` is the position last reported to the writer, before wrapping. -/
structure FlowInv (hi lo last : Nat) (s : PipeSys M) : Prop where
  hwm : s.pipe.hwm = hi
  lwm : s.pipe.lwm = lo
  head : s.pipe.head = u64 s.pipe.pipe.front
  lastHead : s.pipe.lastHeadPosition = u64 last
  lastDue : due (2 ^ 64) (hi - lo + 1) last = true
  lastLe : last ≤ s.pipe.pipe.front
  core : s.pipe.inCoreMsgCnt + last = s.pipe.pipe.slots.length
  coreLe : s.pipe.inCoreMsgCnt ≤ hi
  pending : s.toSource =
    (dueBetween (2 ^ 64) (hi - lo + 1) last s.pipe.pipe.front).map
      fun k => .head (u64 k)

section

variable {hi lo last : Nat}

theorem FlowInv.sizeT_hwm (h : FlowInv hi lo last s) (hhi : hi < 2 ^ 64) :
    sizeT s.pipe.hwm = hi := by
  rw [h.hwm]
  exact sizeT_natCast hhi

theorem FlowInv.sizeT_lwm (h : FlowInv hi lo last s) (hlo : lo < 2 ^ 64) :
    sizeT s.pipe.lwm = lo := by
  rw [h.lwm]
  exact sizeT_natCast hlo

theorem FlowInv.congr (h : FlowInv hi lo last s)
    (hhwm : s'.pipe.hwm = s.pipe.hwm) (hlwm : s'.pipe.lwm = s.pipe.lwm)
    (hhead : s'.pipe.head = s.pipe.head)
    (hlast : s'.pipe.lastHeadPosition = s.pipe.lastHeadPosition)
    (hcore : s'.pipe.inCoreMsgCnt = s.pipe.inCoreMsgCnt)
    (hslots : s'.pipe.pipe.slots = s.pipe.pipe.slots)
    (hfront : s'.pipe.pipe.front = s.pipe.pipe.front)
    (hsrc : s'.toSource = s.toSource) : FlowInv hi lo last s' where
  hwm := hhwm.trans h.hwm
  lwm := hlwm.trans h.lwm
  head := by rw [hhead, hfront]; exact h.head
  lastHead := hlast.trans h.lastHead
  lastDue := h.lastDue
  lastLe := by rw [hfront]; exact h.lastLe
  core := by rw [hcore, hslots]; exact h.core
  coreLe := by rw [hcore]; exact h.coreLe
  pending := by rw [hsrc, hfront]; exact h.pending

variable (hlo : 1 ≤ lo) (hle : lo ≤ hi) (hhi : hi < 2 ^ 63)
  {rest : List ToSource} {p : Pipe M} {position : Nat}

theorem FlowInv.start {src dst : EngineLimits}
    {room : List (RawMsg M) → RawMsg M → Bool}
    (hp : p = Pipe.create src dst room) (hhwm : p.hwm = hi)
    (hlwm : p.lwm = lo) : FlowInv hi lo 0 (start p) := by
  subst hp
  exact
    { hwm := hhwm
      lwm := hlwm
      head := rfl
      lastHead := rfl
      lastDue := by simp [due]
      lastLe := Nat.le_refl _
      core := rfl
      coreLe := Nat.zero_le _
      pending := by simp [PipeSys.start, Pipe.create, Ypipe.create,
        dueBetween_self] }

include hlo hle hhi in
/-- A message goes to the main memory only below the high watermark. -/
theorem FlowInv.write {msg : RawMsg M} (h : FlowInv hi lo last s)
    (hp : s.pipe.write msg = some p) {w : WriterPc}
    {accepted : List (RawMsg M)} :
    FlowInv hi lo last
      { s with pipe := p, writer := w, accepted := accepted } := by
  rcases (Pipe.write_cases hp).2 with ⟨d, _, _, _, rfl⟩ | ⟨hfull, _, rfl⟩
  · exact { h with }
  · have hlt : s.pipe.inCoreMsgCnt < hi := by
      have hsize := h.sizeT_hwm (by omega)
      have hne : s.pipe.inCoreMsgCnt ≠ hi := by
        intro heq
        have hhwm := h.hwm
        simp [Pipe.full, hsize, heq] at hfull
        omega
      have := h.coreLe
      omega
    have hwrap : u64 (s.pipe.inCoreMsgCnt + 1) = s.pipe.inCoreMsgCnt + 1 :=
      u64_of_lt (by omega)
    have hcore := h.core
    exact
      { h with
        core := by
          simp only [Pipe.storeCore, Ypipe.write, hwrap, List.length_append,
            List.length_singleton]
          omega
        coreLe := by
          simp only [Pipe.storeCore, hwrap]
          omega }

include hhi in
theorem FlowInv.moveHead (h : FlowInv hi lo last s)
    (hrange : s.pipe.pipe.front ≤ s.pipe.pipe.slots.length)
    (hq : s.toSource = .head position :: rest) :
    ∃ k, last < k ∧ position = u64 k ∧
      due (2 ^ 64) (hi - lo + 1) k = true ∧
      (∀ j, last < j → j < k → due (2 ^ 64) (hi - lo + 1) j = false) ∧
      k - last ≤ s.pipe.inCoreMsgCnt ∧
      (s.pipe.moveHead position).inCoreMsgCnt =
        s.pipe.inCoreMsgCnt - (k - last) ∧
      FlowInv hi lo k
        { s with pipe := s.pipe.moveHead position, toSource := rest } := by
  have hpend := h.pending
  rw [hq] at hpend
  obtain ⟨k, ks, hks, hpos, hrest⟩ := List.map_eq_cons_iff.mp hpend.symm
  obtain ⟨hlt, hkf, hdue, hnone, htail⟩ := dueBetween_eq_cons hks
  have hposition : position = u64 k := by
    injection hpos with hpos
    exact hpos.symm
  have hcore := h.core
  have hcoreLe := h.coreLe
  have hsub : k - last ≤ s.pipe.inCoreMsgCnt := by omega
  have hmove : (s.pipe.moveHead position).inCoreMsgCnt =
      s.pipe.inCoreMsgCnt - (k - last) := by
    rw [hposition]
    exact Pipe.moveHead_inCoreMsgCnt h.lastHead (by omega) hsub (by omega)
  refine ⟨k, hlt, hposition, hdue, hnone, hsub, hmove, ?_⟩
  exact
    { h with
      lastHead := hposition
      lastDue := hdue
      lastLe := hkf
      core := by
        rw [hmove]
        show s.pipe.inCoreMsgCnt - (k - last) + k = s.pipe.pipe.slots.length
        omega
      coreLe := by
        rw [hmove]
        omega
      pending := by
        rw [← hrest, htail]
        rfl }

include hle hhi in
/-- Taking a message counts it, and reports the position when it is due. -/
theorem FlowInv.pop {report : Bool} (h : FlowInv hi lo last s) (hhi0 : 0 < hi)
    (hc : { s.pipe with pipe := s.pipe.pipe.pop }.countRead = some (p, report))
    {toSource : List ToSource}
    (hsrc : toSource = s.toSource ++ if report then [.head p.head] else [])
    {returned : List (RawMsg M)} :
    FlowInv hi lo last
      { s with
        pipe := p
        reader := .idle
        toSource := toSource
        returned := returned } := by
  subst hsrc
  have hperiod : s.pipe.period = hi - lo + 1 :=
    Pipe.period_eq hle hhi h.hwm h.lwm
  have hhead : u64 (s.pipe.head + 1) = u64 (s.pipe.pipe.front + 1) := by
    rw [h.head]
    unfold u64
    omega
  rcases Pipe.countRead_cases hc with ⟨h0, _⟩ | ⟨_, _, rfl, hreport⟩
  · have hhwm := h.hwm
    have : s.pipe.hwm = 0 := h0
    omega
  · have hdue : report = due (2 ^ 64) (hi - lo + 1) (s.pipe.pipe.front + 1) := by
      have hreport' : report = true ↔
          u64 (s.pipe.head + 1) % s.pipe.period = 0 := hreport
      rw [Bool.eq_iff_iff, hreport', hhead, hperiod]
      simp [due, u64]
    have hlast := h.lastLe
    exact
      { h with
        head := hhead
        lastLe := Nat.le_succ_of_le hlast
        pending := by
          simp only [Ypipe.pop]
          rw [dueBetween_succ hlast, ← hdue, List.map_append, ← h.pending]
          cases report with
          | false => rfl
          | true =>
              simp only [if_true, List.map_singleton]
              rw [← hhead] }

include hhi in
/-- Executing a report and refilling the main memory: the refill stops at the
high watermark. -/
theorem FlowInv.refill (h : FlowInv hi lo last s) (hfifo : FifoInv s)
    (hq : s.toSource = .head position :: rest)
    (hs : (s.pipe.moveHead position).wantsSwapIn = true)
    (hp : (s.pipe.moveHead position).refill s.pipe.inSwapMsgCnt = some p)
    {w : WriterPc} :
    ∃ k, FlowInv hi lo k { s with pipe := p, writer := w, toSource := rest } := by
  obtain ⟨k, _, _, _, _, _, _, hmove⟩ := h.moveHead hhi hfifo.inRange hq
  obtain ⟨d, n, _, _, _, hlen, hn, rfl, _, hbound⟩ := hfifo.refill_eq hs hp
  have hcore : (s.pipe.moveHead position).inCoreMsgCnt + k =
      s.pipe.pipe.slots.length := hmove.core
  have hcoreLe : (s.pipe.moveHead position).inCoreMsgCnt ≤ hi := hmove.coreLe
  have hsize := h.sizeT_hwm (by omega)
  rw [hsize] at hbound
  refine ⟨k, { hmove with core := ?_, coreLe := ?_ }⟩
  · simp only [List.length_append, List.length_take]
    omega
  · show (s.pipe.moveHead position).inCoreMsgCnt + n ≤ hi
    by_cases hn0 : 0 < n
    · exact hbound hn0
    · omega

include hlo hle hhi in
/-- The counters stay right along every run of traffic, with gaps or without. -/
theorem FlowInv.step (h : ∃ last, FlowInv hi lo last s) (hline : LineInv s)
    (hok : Flowing s a) (hs : Step s a s') :
    ∃ last, FlowInv hi lo last s' := by
  obtain ⟨last, h⟩ := h
  have hfifo := hline.fifo
  cases hs with
  | write hw hd hm hp
  | gapWritten hw hd hc hp => exact ⟨last, h.write hlo hle hhi hp⟩
  | terminateWriterAgain hw hd ht => exact hok.elim
  | terminateWriter hw hd ht => exact hok.elim
  | headSwapIn hw hq hsw hp => exact h.refill hhi hfifo hq hsw hp
  | head hw hq hsw hp =>
      obtain ⟨k, _, _, _, _, _, _, hmove⟩ := h.moveHead hhi hfifo.inRange hq
      rw [(Pipe.writeDelayedGap_cases hp).1]
      exact ⟨k, { hmove with }⟩
  | terminatePipe hw hq hsrc hdst => exact hok.elim
  | resume hw hp =>
      refine ⟨last, ?_⟩
      rcases afterFlush_cases hp with
        ⟨_, rfl⟩ | ⟨_, _, rfl⟩ | ⟨_, _, _, rfl⟩ | ⟨_, rfl⟩ <;>
      exact { h with }
  | fetchFound hr hf
  | fetchNone hr hf => exact ⟨last, by apply h.congr <;> simp⟩
  | popDelimiterAgain hr hl ht
  | popDelimiter hr hl ht => exact absurd hl hline.load_ne_delimiter
  | popQuiet hr hl hm hc | popReport hr hl hm hc =>
      exact ⟨last, h.pop hle hhi (by omega) hc (by simp)⟩
  | terminateReaderAgain hr hm ht => exact hok.elim
  | terminateReader hr hm ht => exact hok.elim
  | terminatePipeAck hr hq hm => exact hok.elim
  | _ => exact ⟨last, { h with }⟩

/-! ## Swapping -/

/-- Outside `swap_in` the main memory is full whenever the pipe is swapping, and
the swap file is not empty.  Inside, after the refill, the memory is full or
the swap file is empty. -/
structure SwapInv (hi : Nat) (s : PipeSys M) : Prop where
  full : s.pipe.swapping = true → s.writer.after ≠ some .swapIn →
    s.pipe.inCoreMsgCnt = hi ∧ 0 < s.pipe.inSwapMsgCnt
  refilled : s.pipe.swapping = true → s.writer.after = some .swapIn →
    s.pipe.inCoreMsgCnt = hi ∨ s.pipe.inSwapMsgCnt = 0

theorem SwapInv.congr (h : SwapInv hi s)
    (hsw : s'.pipe.swapping = s.pipe.swapping)
    (hcore : s'.pipe.inCoreMsgCnt = s.pipe.inCoreMsgCnt)
    (hcnt : s'.pipe.inSwapMsgCnt = s.pipe.inSwapMsgCnt)
    (hafter : s'.writer.after = s.writer.after) : SwapInv hi s' where
  full := by rw [hsw, hcore, hcnt, hafter]; exact h.full
  refilled := by rw [hsw, hcore, hcnt, hafter]; exact h.refilled

/-- The report the writer is about to execute comes from the wrap of the
reader's counter, the pipe is swapping, and a period that does not divide
`2^64` makes that report an early one. -/
def EarlyReport (s : PipeSys M) : Prop :=
  s.pipe.swapping = true ∧ s.toSource.head? = some (.head 0) ∧
    ¬ s.pipe.period ∣ 2 ^ 64

/-- No early report is executed while the pipe is swapping. -/
def WrapSafe (s : PipeSys M) (a : PipeAct M) : Prop :=
  a = .head → ¬ EarlyReport s

include hhi in
/-- A write goes to the swap file with the main memory full. -/
theorem SwapInv.write {msg : RawMsg M} (h : SwapInv hi s)
    (hflow : FlowInv hi lo last s) (hw : s.writer = .idle)
    (hp : s.pipe.write msg = some p) {accepted : List (RawMsg M)} :
    SwapInv hi { s with pipe := p, accepted := accepted } := by
  have hafter : s.writer.after = none := by rw [hw]; rfl
  rcases (Pipe.write_cases hp).2 with ⟨d, _, _, hcase, rfl⟩ | ⟨_, hsw, rfl⟩
  · have hfull : s.pipe.inCoreMsgCnt = hi := by
      rcases hcase with hfull | hsw
      · have hsize := hflow.sizeT_hwm (by omega)
        simp only [Pipe.full, hsize, Bool.and_eq_true,
          decide_eq_true_eq] at hfull
        exact hfull.1
      · exact (h.full hsw (by simp [hafter])).1
    exact
      { full := fun _ _ => ⟨hfull, Nat.succ_pos _⟩
        refilled := fun _ _ => .inl hfull }
  · have hoff : (s.pipe.storeCore msg).swapping = false := hsw
    exact
      { full := by simp [hoff]
        refilled := by simp [hoff] }

include hle hhi in
/-- `swap_in` leaves the main memory full or the swap file empty. -/
theorem SwapInv.refill (hflow : FlowInv hi lo last s) (hfifo : FifoInv s)
    (hs : (s.pipe.moveHead position).wantsSwapIn = true)
    (hp : (s.pipe.moveHead position).refill s.pipe.inSwapMsgCnt = some p) :
    SwapInv hi
      { s with pipe := p, writer := .flush .swapIn, toSource := rest } := by
  obtain ⟨d, n, _, _, _, hlen, hn, rfl, hstop, hbound⟩ :=
    hfifo.refill_eq hs hp
  have hsize := hflow.sizeT_hwm (by omega)
  have hlow : (s.pipe.moveHead position).inCoreMsgCnt < lo := by
    have hsizelo : sizeT (s.pipe.moveHead position).lwm = lo :=
      hflow.sizeT_lwm (by omega)
    simp only [Pipe.wantsSwapIn, hsizelo, Bool.and_eq_true,
      decide_eq_true_eq] at hs
    exact hs.2
  rw [hsize] at hstop hbound
  refine { full := fun _ hne => absurd rfl hne, refilled := fun _ _ => ?_ }
  show (s.pipe.moveHead position).inCoreMsgCnt + n = hi ∨
    s.pipe.inSwapMsgCnt - n = 0
  rcases hstop with hstop | hstop
  · exact .inr (by omega)
  · have := hbound (by omega)
    exact .inl (by omega)

include hlo hle hhi in
/-- A full main memory drops below the low watermark when a report covers a
whole period. -/
theorem SwapInv.head (h : SwapInv hi s) (hflow : FlowInv hi lo last s)
    (hfifo : FifoInv s) (hw : s.writer = .idle)
    (hq : s.toSource = .head position :: rest)
    (hs : (s.pipe.moveHead position).wantsSwapIn = false)
    (hsafe : ¬ EarlyReport s) : s.pipe.swapping = false := by
  cases hsw : s.pipe.swapping with
  | false => rfl
  | true =>
      have hafter : s.writer.after = none := by rw [hw]; rfl
      have hfull := (h.full hsw (by simp [hafter])).1
      obtain ⟨k, hlt, hpos, hdue, hnone, hsub, hmove, _⟩ :=
        hflow.moveHead hhi hfifo.inRange hq
      have hinterval : k = last + (hi - lo + 1) := by
        apply due_interval (W := 2 ^ 64) (by omega) (by omega) hflow.lastDue
          hlt hdue hnone
        intro h0
        have hperiod := Pipe.period_eq hle hhi hflow.hwm hflow.lwm
        rw [← hperiod]
        apply Decidable.byContradiction
        intro hndvd
        have hzero : u64 k = 0 := h0
        refine hsafe ⟨hsw, ?_, hndvd⟩
        rw [hq, hpos, hzero]
        rfl
      have hsizelo : sizeT (s.pipe.moveHead position).lwm = lo :=
        hflow.sizeT_lwm (by omega)
      have hsw' : (s.pipe.moveHead position).swapping = true := hsw
      simp only [Pipe.wantsSwapIn, hsw', hsizelo, hmove, Bool.true_and,
        decide_eq_false_iff_not] at hs
      omega

include hlo hle hhi in
theorem SwapInv.step (h : SwapInv hi s) (hflow : FlowInv hi lo last s)
    (hfifo : FifoInv s) (hok : Traffic s a) (hsafe : WrapSafe s a)
    (hs : Step s a s') : SwapInv hi s' := by
  cases hs with
  | write hw hd hm hp => exact h.write hhi hflow hw hp
  | flush hw hd =>
      exact
        { full := fun hsw _ => h.full hsw (by simp [hw, WriterPc.after])
          refilled := by simp [WriterPc.after] }
  | gapWritten hw hd hc hp => exact hok.elim
  | gapDelayed hw hd hc => exact hok.elim
  | terminateWriterAgain hw hd ht => exact hok.elim
  | terminateWriter hw hd ht => exact hok.elim
  | headSwapIn hw hq hsw hp => exact SwapInv.refill hle hhi hflow hfifo hsw hp
  | head hw hq hsw hp =>
      have hoff := h.head hlo hle hhi hflow hfifo hw hq hsw (hsafe rfl)
      rw [(Pipe.writeDelayedGap_cases hp).1]
      exact
        { full := by simp [Pipe.moveHead, hoff]
          refilled := by simp [Pipe.moveHead, hoff] }
  | terminatePipe hw hq hsrc hdst => exact hok.elim
  | casNothing hw hu
  | casFound hw hu hc
  | casNull hw hu hc
  | set hw
  | sendRevive hw hsrc hdst => apply h.congr <;> simp [hw, WriterPc.after]
  | resume hw hp =>
      rcases afterFlush_cases hp with
        ⟨rfl, rfl⟩ | ⟨rfl, hne, rfl⟩ | ⟨rfl, _, _, rfl⟩ | ⟨rfl, rfl⟩
      · exact
          { full := fun hsw _ => h.full hsw (by simp [hw, WriterPc.after])
            refilled := by simp [WriterPc.after] }
      · exact
          { full := fun hsw _ => by
              have hcase := h.refilled hsw (by simp [hw, WriterPc.after])
              exact ⟨hcase.resolve_right hne, Nat.pos_of_ne_zero hne⟩
            refilled := by simp [WriterPc.after] }
      · exact { full := by simp, refilled := by simp }
      · exact
          { full := fun hsw _ => h.full hsw (by simp [hw, WriterPc.after])
            refilled := by simp [WriterPc.after] }
  | popDelimiterAgain hr hl ht => exact { h with }
  | popDelimiter hr hl ht => exact { h with }
  | popQuiet hr hl hm hc | popReport hr hl hm hc =>
      obtain ⟨head, rfl⟩ := Pipe.countRead_eq hc
      exact { h with }
  | _ => exact { h with }

include hlo hle hhi in
/-- An early report leaves a swapping pipe with room in its main memory. -/
theorem EarlyReport.not_full (hearly : EarlyReport s)
    (hflow : FlowInv hi lo last s) (hfifo : FifoInv s)
    (hfull : s.pipe.inCoreMsgCnt = hi) (hs : Step s .head s') :
    s'.pipe.swapping = true ∧ s'.writer = .idle ∧
      s'.pipe.inCoreMsgCnt < hi := by
  obtain ⟨hsw, hfirst, hndvd⟩ := hearly
  have hperiod := Pipe.period_eq hle hhi hflow.hwm hflow.lwm
  rw [hperiod] at hndvd
  have hshort : ∀ {position : Nat} {rest : List ToSource},
      s.toSource = .head position :: rest →
      ∃ n, 0 < n ∧ n < hi - lo + 1 ∧ n ≤ hi ∧
        (s.pipe.moveHead position).inCoreMsgCnt = hi - n := by
    intro position rest hq
    obtain ⟨k, hlt, hpos, hdue, hnone, hsub, hmove, _⟩ :=
      hflow.moveHead hhi hfifo.inRange hq
    have h0 : k % 2 ^ 64 = 0 := by
      rw [hq, hpos] at hfirst
      simpa [u64] using hfirst
    have hnext := due_interval_short (W := 2 ^ 64) (by omega) (by omega)
      hflow.lastDue hlt hdue hnone h0 hndvd
    exact ⟨k - last, by omega, by omega, by omega, by rw [hmove, hfull]⟩
  cases hs with
  | headSwapIn hw hq hsw' hp =>
      obtain ⟨n, hn, hnN, hnhi, hcore⟩ := hshort hq
      have hsizelo := hflow.sizeT_lwm (by omega)
      rw [Pipe.wantsSwapIn, Bool.and_eq_true, hcore, decide_eq_true_eq] at hsw'
      have hlow : hi - n < sizeT s.pipe.lwm := hsw'.2
      omega
  | head hw hq hsw' hp =>
      obtain ⟨n, hn, hnN, hnhi, hcore⟩ := hshort hq
      rw [(Pipe.writeDelayedGap_cases hp).1]
      exact ⟨hsw, hw, by rw [hcore]; omega⟩

end

/-! ## The flow control -/

/-- Nothing is under way: the writer is between two operations, everything in
the main memory is flushed and read, every report has been executed. -/
def Quiescent (s : PipeSys M) : Prop :=
  s.writer = .idle ∧ s.pipe.pipe.w = s.pipe.pipe.slots.length ∧
    s.pipe.pipe.front = s.pipe.pipe.slots.length ∧ s.toSource = []

/-- What the watermarks are for.  `last` stands for `last_head_position` before
wrapping. -/
structure FlowControl (s : PipeSys M) : Prop where
  counted : ∃ last, s.pipe.lastHeadPosition = u64 last ∧
    last ≤ s.pipe.pipe.front ∧
    s.pipe.inCoreMsgCnt + last = s.pipe.pipe.slots.length
  bounded : (s.pipe.inCoreMsgCnt : Int) ≤ s.pipe.hwm
  unread : (s.pipe.coreMsgs.length : Int) ≤ s.pipe.hwm
  swapFull : s.pipe.swapping = true → s.writer.after ≠ some .swapIn →
    (s.pipe.inCoreMsgCnt : Int) = s.pipe.hwm ∧ 0 < s.pipe.inSwapMsgCnt
  quiet : Quiescent s →
    s.pipe.checkWrite = true ∧ s.pipe.swapping = false ∧ s.pipe.damMsgs = []

/-- In a quiescent state the unreported messages are less than a period. -/
theorem FlowInv.quiescent {hi lo last : Nat} (hlo : 1 ≤ lo) (hle : lo ≤ hi)
    (hhi : hi < 2 ^ 63) (h : FlowInv hi lo last s) (hq : Quiescent s) :
    s.pipe.inCoreMsgCnt < hi := by
  obtain ⟨_, _, hread, hsrc⟩ := hq
  have hpend := h.pending
  rw [hsrc] at hpend
  have hnil := List.map_eq_nil_iff.mp hpend.symm
  have hlt := lt_of_dueBetween_eq_nil (by omega) (by omega) hnil
  have hcore := h.core
  omega

theorem FlowControl.of_inv {hi lo last : Nat} (hlo : 1 ≤ lo) (hle : lo ≤ hi)
    (hhi : hi < 2 ^ 63) (hflow : FlowInv hi lo last s) (hfifo : FifoInv s)
    (hswap : SwapInv hi s) : FlowControl s := by
  have hhwm := hflow.hwm
  have hcore := hflow.core
  have hcoreLe := hflow.coreLe
  have hlast := hflow.lastLe
  exact
    { counted := ⟨last, hflow.lastHead, hlast, hcore⟩
      bounded := by omega
      unread := by
        simp only [Pipe.coreMsgs, List.length_drop]
        omega
      swapFull := fun hsw hafter => by
        obtain ⟨hfull, hpos⟩ := hswap.full hsw hafter
        exact ⟨by omega, hpos⟩
      quiet := fun hq => by
        have hlt := hflow.quiescent hlo hle hhi hq
        have hsize : sizeT s.pipe.hwm = hi := by
          rw [hhwm]
          exact sizeT_natCast (by omega)
        have hoff : s.pipe.swapping = false := by
          cases hsw : s.pipe.swapping with
          | false => rfl
          | true =>
              have hfull := (hswap.full hsw (by simp [hq.1, WriterPc.after])).1
              omega
        exact ⟨by simp [Pipe.checkWrite, hsize, hlt], hoff,
          hfifo.swapOff hoff⟩ }

section Runs

variable {hi lo : Nat} (hlo : 1 ≤ lo) (hle : lo ≤ hi) (hhi : hi < 2 ^ 63)
  {src dst : EngineLimits} {room : List (RawMsg M) → RawMsg M → Bool}
  (hhwm : (Pipe.create src dst room).hwm = hi)
  (hlwm : (Pipe.create src dst room).lwm = lo) {as : List (PipeAct M)}

include hlo hle hhi hhwm hlwm

theorem FlowInv.run
    (h : Run PipeSys.step Traffic
      (PipeSys.start (Pipe.create src dst room)) as s) :
    OpenInv s ∧ ∃ last, FlowInv hi lo last s :=
  invariant_of_step (I := fun t => OpenInv t ∧ ∃ last, FlowInv hi lo last t)
    (fun _ _ _ hI hok hs =>
      ⟨hI.1.step hok hs,
        FlowInv.step hlo hle hhi hI.2 hI.1.line hok.flowing hs⟩) h
    ⟨OpenInv.start src dst room, 0, FlowInv.start rfl hhwm hlwm⟩

/-- Without early reports the main memory stays full while swapping. -/
theorem FlowControl.run
    (h : Run PipeSys.step (fun s a => Traffic s a ∧ WrapSafe s a)
      (PipeSys.start (Pipe.create src dst room)) as s) : FlowControl s := by
  obtain ⟨hopen, ⟨last, hflow⟩, hswap⟩ :
      OpenInv s ∧ (∃ last, FlowInv hi lo last s) ∧ SwapInv hi s :=
    invariant_of_step
      (I := fun t => OpenInv t ∧ (∃ last, FlowInv hi lo last t) ∧
        SwapInv hi t)
      (fun u b u' hI hok hs => by
        obtain ⟨hopen, ⟨last, hflow⟩, hswap⟩ := hI
        exact ⟨hopen.step hok.1 hs,
          FlowInv.step hlo hle hhi ⟨last, hflow⟩ hopen.line hok.1.flowing hs,
          hswap.step hlo hle hhi hflow hopen.fifo hok.1 hok.2 hs⟩) h
      ⟨OpenInv.start src dst room, ⟨0, FlowInv.start rfl hhwm hlwm⟩,
        by simp [PipeSys.start, Pipe.create],
        by simp [PipeSys.start, Pipe.create]⟩
  exact FlowControl.of_inv hlo hle hhi hflow hopen.fifo hswap

/-- An early report would break the state it leads to. -/
theorem EarlyReport.breaks
    (h : Run PipeSys.step Traffic
      (PipeSys.start (Pipe.create src dst room)) as s)
    (hearly : EarlyReport s) (hs : s.step .head = some s')
    (hbefore : FlowControl s) : ¬ FlowControl s' := by
  obtain ⟨hopen, last, hflow⟩ := FlowInv.run hlo hle hhi hhwm hlwm h
  obtain ⟨_, last', hflow'⟩ := FlowInv.run hlo hle hhi hhwm hlwm
    (h.snoc (show Traffic s .head from trivial) hs)
  have hidle : s.writer.after ≠ some .swapIn := by
    cases Step.of_step hs with
    | headSwapIn hw hq hsw hp => simp [hw, WriterPc.after]
    | head hw hq hsw hp => simp [hw, WriterPc.after]
  have hfull := (hbefore.swapFull hearly.1 hidle).1
  have hhwm1 := hflow.hwm
  have hhwm2 := hflow'.hwm
  obtain ⟨hsw, hidle', hlt⟩ := hearly.not_full hlo hle hhi hflow hopen.fifo
    (by omega) (.of_step hs)
  intro hafter
  have hfull' := (hafter.swapFull hsw (by simp [hidle', WriterPc.after])).1
  omega

end Runs

/-- **Flow control.**  For every pipe with `1 ≤ lwm ≤ hwm`, with or without
swap, and every run of traffic: the flow control does its job in all states of
the run if and only if no step of the run executes an early report while the
pipe is swapping. -/
theorem flow_control_iff {src dst : EngineLimits}
    {room : List (RawMsg M) → RawMsg M → Bool} {as : List (PipeAct M)}
    (hlo : 1 ≤ (Pipe.create src dst room).lwm)
    (hle : (Pipe.create src dst room).lwm ≤ (Pipe.create src dst room).hwm)
    (hhi : (Pipe.create src dst room).hwm < 2 ^ 63)
    (h : Run step Traffic (PipeSys.start (Pipe.create src dst room)) as s) :
    (∀ pre t, pre <+: as →
      Run step Traffic (PipeSys.start (Pipe.create src dst room)) pre t →
        FlowControl t) ↔
    (∀ pre a t, pre ++ [a] <+: as →
      Run step Traffic (PipeSys.start (Pipe.create src dst room)) pre t →
        WrapSafe t a) := by
  obtain ⟨hi, hhwm⟩ := Int.eq_ofNat_of_zero_le
    (show 0 ≤ (Pipe.create src dst room).hwm by omega)
  obtain ⟨lo, hlwm⟩ := Int.eq_ofNat_of_zero_le
    (show 0 ≤ (Pipe.create src dst room).lwm by omega)
  constructor
  · rintro hgood pre a t ⟨post, hpost⟩ hrun rfl hearly
    rw [← hpost] at h
    obtain ⟨t', hrun', _⟩ := h.split
    obtain ⟨u, hu, hstep⟩ := hrun'.split
    obtain rfl := hu.unique hrun
    cases hstep with
    | cons hok hs hnil =>
        cases hnil
        exact EarlyReport.breaks (by omega) (by omega) (by omega) hhwm hlwm hu
          hearly hs (hgood pre u ⟨.head :: post, by simpa using hpost⟩ hu)
          (hgood (pre ++ [.head]) t' ⟨post, hpost⟩ hrun')
  · intro hsafe pre t hpre hrun
    apply FlowControl.run (by omega) (by omega) (by omega) hhwm hlwm
    exact hrun.and fun pre' a u hpre' hrun' =>
      hsafe pre' a u (hpre'.trans hpre) hrun'

/-- With `hwm = lwm = 1` every message is reported, so that no report is early:
three messages through such a pipe, the last two through the swap file. -/
theorem flow_control_each_message :
    ∃ s, Run step Traffic
        (PipeSys.start (Pipe.create ⟨1, 1, 20⟩ ⟨0, 0, 0⟩ (damRoom 20)))
        [.write (.data [1]), .write (.data [2]), .write (.data [3]), .flush,
          .cas, .resume, .read, .fetch, .pop, .head, .cas, .resume] s ∧
      s.pipe.swapping = true ∧ s.returned = [.data [1]] ∧ FlowControl s := by
  refine Run.exists_of_exec (by decide +kernel)
    fun s hrun hs => ⟨And.left hs, And.right hs, ?_⟩
  refine (flow_control_iff (by decide) (by decide) (by decide) hrun).mpr ?_ _ s
    (List.prefix_refl _) hrun
  intro pre a t _ hrun' _ hearly
  have hone : 0 < 1 := Nat.one_pos
  obtain ⟨_, last, hflow⟩ := FlowInv.run hone (Nat.le_refl 1) (by decide) rfl
    rfl hrun'
  have hperiod := Pipe.period_eq (by omega) (by omega) hflow.hwm hflow.lwm
  exact hearly.2.2 (by rw [hperiod]; exact Nat.one_dvd _)

/-! ## A run that wedges the pipe -/

section Wedge

/-- A pipe with `hwm = 3`, `lwm = 1` and a swap file of 20 bytes.  Its period,
3, does not divide `2^64`. -/
def wedgePipe : Pipe (List UInt8) :=
  Pipe.create ⟨3, 1, 20⟩ ⟨0, 0, 0⟩ (damRoom 20)

/-- The pipe after `n` messages were written, flushed and read one by one, and
every report was executed. -/
def drained (n : Nat) : PipeSys (List UInt8) :=
  { PipeSys.start wedgePipe with
    pipe :=
      { wedgePipe with
        pipe :=
          { slots := List.replicate n (.data [7]), front := n, w := n,
            r := some n, c := some n, stop := false }
        head := n
        lastHeadPosition := n - n % 3
        inCoreMsgCnt := n % 3 }
    accepted := List.replicate n (.data [7])
    returned := List.replicate n (.data [7]) }

/-- One message through a drained pipe, short of its report. -/
def passed (n : Nat) : PipeSys (List UInt8) :=
  { drained (n + 1) with
    toSource := if (n + 1) % 3 = 0 then [.head (n + 1)] else []
    pipe :=
      { (drained (n + 1)).pipe with
        lastHeadPosition := n - n % 3
        inCoreMsgCnt := n % 3 + 1 } }

theorem exec_pass (hn : n + 1 < 2 ^ 64) :
    exec step Traffic (drained n)
      [.write (.data [7]), .flush, .cas, .resume, .read, .fetch, .pop] =
      some (passed n) := by
  have hsize : sizeT 3 = 3 := rfl
  have hne : n % 3 ≠ 3 := by omega
  have hcore : u64 (n % 3 + 1) = n % 3 + 1 := u64_of_lt (by omega)
  have hhead : u64 (n + 1) = n + 1 := u64_of_lt hn
  by_cases hreport : (n + 1) % 3 = 0 <;>
  simp [exec, Traffic, step, writerStep, readerStep, passed, drained,
    wedgePipe, PipeSys.start, Pipe.create, Pipe.checkWrite, Pipe.write,
    Pipe.full, Pipe.storeCore, Pipe.countRead, Pipe.period, Ypipe.write,
    Ypipe.unflushed, Ypipe.flushCas, Ypipe.back, Ypipe.prefetched,
    Ypipe.fetch, Ypipe.load, Ypipe.pop, RawMsg.isDelimiter, afterFlush,
    deliver, List.replicate_succ', hsize, hne, hcore, hhead, hreport]

theorem exec_report (hn : n + 1 < 2 ^ 64) (hreport : (n + 1) % 3 = 0) :
    exec step Traffic (passed n) [.head] = some (drained (n + 1)) := by
  have hcore : u64 (n % 3 + 1 +
      (2 ^ 64 - u64 (n + 1 + (2 ^ 64 - (n - n % 3))))) = 0 := by
    unfold u64
    omega
  simp only [Nat.reducePow] at hcore
  simp [exec, Traffic, step, writerStep, passed, drained, wedgePipe,
    PipeSys.start, Pipe.create, Pipe.moveHead, Pipe.wantsSwapIn,
    Pipe.writeDelayedGap, hreport, hcore]

theorem passed_eq (hreport : (n + 1) % 3 ≠ 0) :
    passed n = drained (n + 1) := by
  have hlast : n + 1 - (n + 1) % 3 = n - n % 3 := by omega
  have hcore : (n + 1) % 3 = n % 3 + 1 := by omega
  unfold passed
  rw [if_neg hreport, ← hlast, ← hcore]
  rfl

/-- The reader's counter can be brought to any value. -/
theorem run_drained (hn : n < 2 ^ 64) :
    ∃ as, Run step Traffic (PipeSys.start wedgePipe) as (drained n) := by
  induction n with
  | zero => exact ⟨[], .nil _⟩
  | succ n ih =>
      obtain ⟨as, hrun⟩ := ih (by omega)
      have hpass := hrun.append (.of_exec (exec_pass hn))
      by_cases hreport : (n + 1) % 3 = 0
      · exact ⟨_, hpass.append (.of_exec (exec_report hn hreport))⟩
      · rw [← passed_eq hreport]
        exact ⟨_, hpass⟩

/-- Four more messages are written: the fourth goes to the swap file. -/
def filled (n : Nat) : PipeSys (List UInt8) :=
  { drained n with
    pipe :=
      { (drained n).pipe with
        pipe :=
          { (drained n).pipe.pipe with
            slots := List.replicate (n + 3) (.data [7]) }
        inCoreMsgCnt := 3
        dataDam := some ⟨damRoom 20, [.data [7]]⟩
        swapping := true
        inSwapMsgCnt := 1 }
    accepted := List.replicate (n + 4) (.data [7]) }

/-- The first of them is read: the counter wraps, and the report of position 0
covers one message. -/
def wrapped (n : Nat) : PipeSys (List UInt8) :=
  { filled n with
    pipe :=
      { (filled n).pipe with
        pipe :=
          { slots := List.replicate (n + 3) (.data [7]), front := n + 1,
            w := n + 3, r := some (n + 3), c := some (n + 3), stop := false }
        head := 0
        lastHeadPosition := 0
        inCoreMsgCnt := 2 }
    returned := List.replicate (n + 1) (.data [7]) }

/-- The pipe after four more messages, the wrap of the counter and three
reads. -/
def wedged (n : Nat) : PipeSys (List UInt8) :=
  { PipeSys.start wedgePipe with
    pipe :=
      { wedgePipe with
        pipe :=
          { slots := List.replicate (n + 3) (.data [7]), front := n + 3,
            w := n + 3, r := some (n + 3), c := some (n + 3), stop := false }
        head := 2
        lastHeadPosition := 0
        inCoreMsgCnt := 2
        dataDam := some ⟨damRoom 20, [.data [7]]⟩
        swapping := true
        inSwapMsgCnt := 1 }
    accepted := List.replicate (n + 4) (.data [7])
    returned := List.replicate (n + 3) (.data [7]) }

theorem exec_fill (hmod : n % 3 = 0) :
    exec step Traffic (drained n)
      [.write (.data [7]), .write (.data [7]), .write (.data [7]),
        .write (.data [7])] = some (filled n) := by
  have hsize : sizeT 3 = 3 := rfl
  have hone : u64 1 = 1 := rfl
  have htwo : u64 2 = 2 := rfl
  have hthree : u64 3 = 3 := rfl
  have hroom : damRoom 20 [] (.data [7]) = true := by decide
  simp [exec, Traffic, step, writerStep, filled, drained, wedgePipe,
    PipeSys.start, Pipe.create, Pipe.checkWrite, Pipe.write, Pipe.full,
    Pipe.storeCore, Pipe.storeSwap, DataDam.store, Ypipe.write,
    RawMsg.isDelimiter, List.replicate_succ', hsize, hmod, hone, htwo, hthree,
    hroom]

theorem exec_wrap (hn : n + 1 = 2 ^ 64) :
    exec step Traffic (filled n)
      [.flush, .cas, .resume, .read, .fetch, .pop, .head] =
      some (wrapped n) := by
  have hhwm : sizeT 3 = 3 := rfl
  have hlwm : sizeT 1 = 1 := rfl
  have hmod : n % 3 = 0 := by omega
  have hhead : u64 (n + 1) = 0 := by rw [hn]; rfl
  have hcore : u64 (3 + (2 ^ 64 - u64 (2 ^ 64 - n))) = 2 := by
    unfold u64
    omega
  simp only [Nat.reducePow] at hcore
  simp [exec, Traffic, step, writerStep, readerStep, wrapped, filled, drained,
    wedgePipe, PipeSys.start, Pipe.create, Pipe.countRead, Pipe.period,
    Pipe.moveHead, Pipe.wantsSwapIn, Pipe.writeDelayedGap, Ypipe.unflushed,
    Ypipe.flushCas, Ypipe.back, Ypipe.prefetched, Ypipe.fetch, Ypipe.load,
    Ypipe.pop, RawMsg.isDelimiter, afterFlush, deliver, List.replicate_succ',
    hhwm, hlwm, hmod, hcore, hhead]

theorem exec_drain :
    exec step Traffic (wrapped n) [.read, .pop, .read, .pop] =
      some (wedged n) := by
  have hhwm : sizeT 3 = 3 := rfl
  have hone : u64 1 = 1 := rfl
  have htwo : u64 2 = 2 := rfl
  simp [exec, Traffic, step, writerStep, readerStep, wedged, wrapped, filled,
    drained, wedgePipe, PipeSys.start, Pipe.create, Pipe.countRead,
    Pipe.period, Ypipe.prefetched, Ypipe.load, Ypipe.pop, RawMsg.isDelimiter,
    deliver, List.replicate_succ', List.getElem_append_right, Nat.add_assoc,
    hhwm, hone, htwo]

theorem run_wedge (hn : n + 1 = 2 ^ 64) :
    ∃ as, Run step Traffic (drained n) as (wedged n) :=
  ⟨_, ((Run.of_exec (exec_fill (by omega))).append
    (.of_exec (exec_wrap hn))).append (.of_exec exec_drain)⟩

/-- After `2^64 - 1` messages have passed, four are written: three fill the main
memory and the fourth goes to the swap file.  The next read wraps the counter
and reports position 0, which covers one message.  The pipe goes on swapping
with room in its main memory, and once the reader has drained it no report is
due: the fourth message stays in the swap file. -/
theorem flow_control_wedges :
    ∃ as t, Run step Traffic (PipeSys.start wedgePipe) as t ∧
      1 ≤ wedgePipe.lwm ∧ wedgePipe.lwm ≤ wedgePipe.hwm ∧
      Quiescent t ∧ t.pipe.swapping = true ∧ t.pipe.inCoreMsgCnt = 2 ∧
      t.pipe.hwm = 3 ∧ t.pipe.damMsgs = [.data [7]] ∧ ¬ FlowControl t := by
  obtain ⟨n, hn⟩ : ∃ n, n + 1 = 2 ^ 64 := ⟨2 ^ 64 - 1, by omega⟩
  obtain ⟨as, hrun⟩ := run_drained (show n < 2 ^ 64 by omega)
  obtain ⟨bs, hwedge⟩ := run_wedge hn
  have hquiet : Quiescent (wedged n) := by
    simp [Quiescent, wedged, PipeSys.start]
  refine ⟨_, wedged n, hrun.append hwedge, by decide, by decide, hquiet, rfl,
    rfl, rfl, rfl, ?_⟩
  intro hcontrol
  have hoff : true = false := (hcontrol.quiet hquiet).2.1
  cases hoff

end Wedge

end PipeSys

end ZeroMQ
