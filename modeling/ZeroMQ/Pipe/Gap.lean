import ZeroMQ.Dam.Store
import ZeroMQ.Pipe.Flow
import ZeroMQ.Pipe.Period

/-!
# Delayed gaps, and the promise of `check_write`

`check_write` tells the demux whether it may call `write`, which asserts what
it relies on: that no gap is delayed, that there is a swap file once the high
watermark is hit, and that the swap file takes the message.

The first two follow from `check_write`.  The third does not: a pipe with a swap
file always promises room, and a full swap file makes `write` fail.

A gap that finds no room is delayed until `set_head` makes some.  `set_head`
then calls `write` with the gap still marked as delayed, which `write` asserts
it is not.  So a gap that was delayed is never written, and gaps keep their
place among the messages only up to the first `set_head` after a delay.

## Main results

* `PipeSys.GapInv.run` — in every run a gap is delayed only while there is no
  room.
* `check_write_promise_iff` — the writes that succeed when `check_write` has
  returned true.
* `gaps_in_place` — runs in which no `set_head` meets a delayed gap.
-/

namespace ZeroMQ

open ZeroMQ.Lib

namespace PipeSys

variable {M : Type} {s s' : PipeSys M} {a : PipeAct M}

/-- A gap is delayed only while there is no room; the swap file, if there is
one, is that of `p`. -/
structure GapInv (p : Pipe M) (s : PipeSys M) : Prop where
  held : s.pipe.delayedGap = true → s.pipe.checkWrite = false
  dam : s.pipe.dataDam.map DataDam.room = p.dataDam.map DataDam.room

theorem GapInv.free {p : Pipe M} (h : GapInv p s)
    (hcheck : s.pipe.checkWrite = true) : s.pipe.delayedGap = false := by
  cases hdelayed : s.pipe.delayedGap with
  | false => rfl
  | true => exact (Bool.false_ne_true ((h.held hdelayed).symm.trans hcheck)).elim

/-- A pipe with a swap file never delays a gap. -/
theorem GapInv.free_of_dam {p : Pipe M} {d : DataDam M} (h : GapInv p s)
    (hd : s.pipe.dataDam = some d) : s.pipe.delayedGap = false :=
  h.free (by simp [Pipe.checkWrite, hd])

theorem GapInv.write {p p' : Pipe M} {msg : RawMsg M} (h : GapInv p s)
    (hp : s.pipe.write msg = some p') {w : WriterPc}
    {accepted : List (RawMsg M)} :
    GapInv p { s with pipe := p', writer := w, accepted := accepted } := by
  obtain ⟨hgap, hcase⟩ := Pipe.write_cases hp
  rcases hcase with ⟨d, hd, _, _, rfl⟩ | ⟨_, _, rfl⟩
  · refine ⟨fun hdelayed => ?_, ?_⟩
    · exact (Bool.false_ne_true (hgap.symm.trans hdelayed)).elim
    · have hdam := h.dam
      rw [hd] at hdam
      exact hdam
  · refine ⟨fun hdelayed => ?_, h.dam⟩
    exact (Bool.false_ne_true (hgap.symm.trans hdelayed)).elim

theorem GapInv.step {p : Pipe M} (h : GapInv p s) (hfifo : FifoInv s)
    (hs : Step s a s') : GapInv p s' := by
  cases hs with
  | write hw hd hm hp => exact h.write hp
  | gapWritten hw hd hc hp => exact h.write hp
  | gapDelayed hw hd hc => exact ⟨fun _ => hc, h.dam⟩
  | headSwapIn hw hq hsw hp =>
      obtain ⟨d, k, _, hd, _, _, _, rfl, _, _⟩ := hfifo.refill_eq hsw hp
      refine ⟨fun hdelayed => ?_, ?_⟩
      · have hnone := h.free_of_dam hd
        exact (Bool.false_ne_true (hnone.symm.trans hdelayed)).elim
      · have hdam := h.dam
        rw [hd] at hdam
        exact hdam
  | head hw hq hsw hp =>
      obtain ⟨rfl, hheld⟩ := Pipe.writeDelayedGap_cases hp
      refine ⟨fun hdelayed => ?_, h.dam⟩
      rw [hdelayed, Bool.true_and] at hheld
      exact hheld
  | resume hw hp =>
      rcases afterFlush_cases hp with
        ⟨_, rfl⟩ | ⟨_, _, rfl⟩ | ⟨_, _, _, rfl⟩ | ⟨_, rfl⟩ <;>
      exact ⟨h.held, h.dam⟩
  | popQuiet hr hl hm hc | popReport hr hl hm hc =>
      obtain ⟨head, rfl⟩ := Pipe.countRead_eq hc
      exact ⟨h.held, h.dam⟩
  | _ => exact ⟨h.held, h.dam⟩

theorem GapInv.run {src dst : EngineLimits}
    {room : List (RawMsg M) → RawMsg M → Bool} {as : List (PipeAct M)}
    {ok : PipeSys M → PipeAct M → Prop}
    (hrun : Run PipeSys.step ok (start (Pipe.create src dst room)) as s) :
    FifoInv s ∧ GapInv (Pipe.create src dst room) s :=
  invariant_of_step
    (I := fun s => FifoInv s ∧ GapInv (Pipe.create src dst room) s)
    (fun _ _ _ hI _ hs => ⟨hI.1.step hs, hI.2.step hI.1 hs⟩) hrun
    ⟨FifoInv.start src dst room,
      ⟨fun hdelayed => (Bool.false_ne_true hdelayed).elim, rfl⟩⟩

end PipeSys

/-! ## The promise of `check_write` -/

/-- **The promise of `check_write`.**  For every pair of engines and in every
state of a run, after `check_write` has returned true `write` succeeds exactly
if the message stays in the main memory or the swap file has room for it. -/
theorem check_write_promise_iff {M : Type} {src dst : EngineLimits}
    {room : List (RawMsg M) → RawMsg M → Bool} {as : List (PipeAct M)}
    {s : PipeSys M}
    (hrun : Run PipeSys.step Any (.start (Pipe.create src dst room)) as s)
    (hcheck : s.pipe.checkWrite = true) (msg : RawMsg M) :
    (s.pipe.write msg).isSome = true ↔
      (s.pipe.full = true ∨ s.pipe.swapping = true →
        room s.pipe.damMsgs msg = true) := by
  obtain ⟨hfifo, hgap⟩ := PipeSys.GapInv.run hrun
  have hroom : ∀ d, s.pipe.dataDam = some d →
      d.room d.msgs = room s.pipe.damMsgs := by
    intro d hd
    have hdam := hgap.dam
    rw [hd, Option.map_some] at hdam
    change _ = Option.map DataDam.room (if src.swapSize + dst.swapSize > 0 then
      some (DataDam.mk room []) else none) at hdam
    split at hdam
    · rw [Option.map_some, Option.some.injEq] at hdam
      rw [hdam, Pipe.damMsgs, hd]
    · cases hdam
  constructor
  · intro hsome hswap
    obtain ⟨p, hp⟩ := Option.isSome_iff_exists.mp hsome
    rcases (Pipe.write_cases hp).2 with ⟨d, hd, hr, _, _⟩ | ⟨hfull, hoff, _⟩
    · rw [← hroom d hd]
      exact hr
    · rw [hfull, hoff] at hswap
      cases hswap <;> contradiction
  · intro hswap
    have hfree := hgap.free hcheck
    by_cases hcore : s.pipe.full = true ∨ s.pipe.swapping = true
    · refine Pipe.write_isSome hfree hcheck hfifo.swapDam fun d hd => ?_
      rw [hroom d hd]
      exact hswap hcore
    · rw [not_or, Bool.not_eq_true, Bool.not_eq_true] at hcore
      simp [Pipe.write, hfree, hcore.1, hcore.2]

/-- A swap file of twenty bytes takes a message of one byte behind a full main
memory. -/
theorem check_write_promise_iff_room :
    ∃ s, Run PipeSys.step Any
        (.start (Pipe.create outEngine (inEngine 1 1 20) (damRoom 20)))
        [.write (.data [1])] s ∧
      s.pipe.checkWrite = true ∧ s.pipe.full = true ∧
      (s.pipe.write (.data [2])).isSome = true := by
  refine Run.exists_of_exec (P := fun s => s.pipe.checkWrite = true ∧
    s.pipe.full = true ∧ damRoom 20 s.pipe.damMsgs (.data [2]) = true)
    (by decide +kernel) ?_
  rintro s hrun ⟨hcheck, hfull, hroom⟩
  exact ⟨hcheck, hfull,
    (check_write_promise_iff hrun hcheck _).mpr fun _ => hroom⟩

/-- The same swap file takes two messages.  `check_write` still returns true, and
the next `write` fails. -/
theorem check_write_breaks_promise :
    ∃ s, Run PipeSys.step Any
        (.start (Pipe.create outEngine (inEngine 1 1 20) (damRoom 20)))
        [.write (.data [1]), .write (.data [2]), .write (.data [3])] s ∧
      s.pipe.checkWrite = true ∧
      (s.pipe.write (.data [4])).isSome = false :=
  Run.of_exec_any (by decide +kernel)

/-! ## The place of a gap -/

namespace PipeSys

variable {M : Type} {s s' : PipeSys M} {a : PipeAct M}

/-- No gap is delayed when `set_head` is called. -/
def Ungapped (s : PipeSys M) : PipeAct M → Prop
  | .head => s.pipe.delayedGap = false
  | _ => True

instance (s : PipeSys M) (a : PipeAct M) : Decidable (Ungapped s a) :=
  match a with
  | .head => inferInstanceAs (Decidable (_ = _))
  | .write _ | .flush | .gap | .terminateWriter | .terminatePipe | .cas | .set
  | .sendRevive | .resume | .read | .fetch | .die | .pop | .revive
  | .terminateReader | .terminatePipeAck => .isTrue trivial

/-- What was accepted stays accepted, in its place. -/
theorem Step.accepted_grows (hs : Step s a s') : s.accepted <+: s'.accepted := by
  cases hs with
  | write hw hd hm hp => exact List.prefix_append _ _
  | gapWritten hw hd hc hp => exact List.prefix_append _ _
  | gapDelayed hw hd hc =>
      show s.accepted <+: s.announce
      unfold announce
      split
      · exact List.prefix_rfl
      · exact List.prefix_append _ _
  | _ => exact List.prefix_rfl

theorem accepted_grows {ok : PipeSys M → PipeAct M → Prop}
    {as : List (PipeAct M)} (hrun : Run PipeSys.step ok s as s') :
    s.accepted <+: s'.accepted :=
  invariant_of_step (I := fun t => s.accepted <+: t.accepted)
    (fun _ _ _ hI _ hs => hI.trans hs.accepted_grows) hrun List.prefix_rfl

/-- Without a swap file `check_write` keeps its promise. -/
theorem GapInv.write_isSome {p : Pipe M} (h : GapInv p s) (hfifo : FifoInv s)
    (hdam : s.pipe.dataDam = none) (hcheck : s.pipe.checkWrite = true)
    (msg : RawMsg M) : (s.pipe.write msg).isSome = true := by
  refine Pipe.write_isSome (h.free hcheck) hcheck hfifo.swapDam fun d hd => ?_
  rw [hdam] at hd
  cases hd

/-- A call of `gap` puts one notification behind everything accepted, unless one
is waiting there already. -/
theorem LineInv.gap (h : LineInv s) (hs : Step s .gap s') :
    ∃ earlier, s'.accepted = earlier ++ [.gap] ∧
      (s.pipe.delayedGap = false → earlier = s.accepted) ∧
      (s.pipe.delayedGap = true → s'.accepted = s.accepted) := by
  cases hs with
  | gapWritten hw hd hc hp =>
      refine ⟨s.accepted, rfl, fun _ => rfl, fun hdelayed => ?_⟩
      have hfree := (Pipe.write_cases hp).1
      exact (Bool.false_ne_true (hfree.symm.trans hdelayed)).elim
  | gapDelayed hw hd hc =>
      show ∃ earlier, s.announce = earlier ++ [.gap] ∧ _ ∧
        (_ → s.announce = s.accepted)
      cases hdelayed : s.pipe.delayedGap with
      | false =>
          have hnew : s.announce = s.accepted ++ [.gap] := by
            rw [announce, hdelayed, if_neg (by decide)]
          exact ⟨s.accepted, hnew, fun _ => rfl,
            fun htrue => (Bool.false_ne_true htrue).elim⟩
      | true =>
          have hsame : s.announce = s.accepted := by
            rw [announce, hdelayed, if_pos rfl]
          have hpending : pendingGap s.pipe = [.gap] := by
            rw [pendingGap, hdelayed, if_pos rfl]
          refine ⟨s.returned ++ s.pipe.coreMsgs ++ s.pipe.damMsgs, ?_,
            fun hfalse => (Bool.false_ne_true hfalse.symm).elim, fun _ => hsame⟩
          rw [hsame, h.accepted_eq, hpending]

theorem FlowInv.checkWrite_moveHead {hi lo last position : Nat}
    {rest : List ToSource} (h : FlowInv hi lo last s) (hhi : hi < 2 ^ 63)
    (hfifo : FifoInv s) (hq : s.toSource = .head position :: rest) :
    (s.pipe.moveHead position).checkWrite = true := by
  obtain ⟨k, hk, _, _, _, hsub, hmove, _⟩ := h.moveHead hhi hfifo.inRange hq
  have hcore := h.coreLe
  have hsize : sizeT (s.pipe.moveHead position).hwm = hi :=
    h.sizeT_hwm (by omega)
  have hlt : (s.pipe.moveHead position).inCoreMsgCnt < hi := by
    rw [hmove]
    omega
  simp [Pipe.checkWrite, hsize, hlt]

/-- `set_head` succeeds exactly if no gap is delayed. -/
theorem FlowInv.head_isSome_iff {hi lo last position : Nat}
    {rest : List ToSource} (h : FlowInv hi lo last s) (hhi : hi < 2 ^ 63)
    (hfifo : FifoInv s) (hdam : s.pipe.dataDam = none)
    (hw : s.writer = .idle) (hq : s.toSource = .head position :: rest) :
    (s.step .head).isSome = true ↔ s.pipe.delayedGap = false := by
  have hcheck := h.checkWrite_moveHead hhi hfifo hq
  have hoff : s.pipe.swapping = false := by
    cases hsw : s.pipe.swapping with
    | false => rfl
    | true =>
        have hsome := hfifo.swapDam hsw
        rw [hdam] at hsome
        cases hsome
  have hcore : (s.pipe.moveHead position).wantsSwapIn = false := by
    rw [Pipe.wantsSwapIn, show (s.pipe.moveHead position).swapping = false
      from hoff, Bool.false_and]
  have hstep : s.step .head =
      (s.pipe.moveHead position).writeDelayedGap.map fun p =>
        { s with pipe := p, toSource := rest } := by
    simp [PipeSys.step, writerStep, readerStep, hw, hq, hcore]
  rw [hstep, Option.isSome_map, Pipe.writeDelayedGap, hcheck, Bool.and_true,
    show (s.pipe.moveHead position).delayedGap = s.pipe.delayedGap from rfl]
  cases hdelayed : s.pipe.delayedGap with
  | false => simp
  | true =>
      have hfails : (s.pipe.moveHead position).write .gap = none := by
        rw [Pipe.write, show (s.pipe.moveHead position).delayedGap = true
          from hdelayed, if_pos rfl]
      simp [hfails]

theorem LineInv.run {src dst : EngineLimits}
    {room : List (RawMsg M) → RawMsg M → Bool} {hi lo : Nat} (hlo : 1 ≤ lo)
    (hle : lo ≤ hi) (hhi : hi < 2 ^ 63)
    (hhwm : (Pipe.create src dst room).hwm = hi)
    (hlwm : (Pipe.create src dst room).lwm = lo) {as : List (PipeAct M)}
    {ok : PipeSys M → PipeAct M → Prop} (hok : ∀ s a, ok s a → Flowing s a)
    (hrun : Run PipeSys.step ok (.start (Pipe.create src dst room)) as s) :
    LineInv s ∧ ∃ last, FlowInv hi lo last s :=
  invariant_of_step (I := fun s => LineInv s ∧ ∃ last, FlowInv hi lo last s)
    (fun u b _ hI hb hs => ⟨hI.1.step (hok u b hb) hs,
      FlowInv.step hlo hle hhi hI.2 hI.1 (hok u b hb) hs⟩) hrun
    ⟨LineInv.start src dst room, 0, FlowInv.start rfl hhwm hlwm⟩

end PipeSys

open PipeSys in
/-- **Gaps keep their place.**  For watermarks `1 ≤ lwm ≤ hwm` and no swap file,
in every run in which no `set_head` meets a delayed gap: `write` does not fail
after `check_write` has returned true, and `gap` does not fail; what `read` has
returned is followed by the messages in the pipe and the delayed gap; a call of
`gap` accounts for one notification behind everything written before it, or for
the one that is waiting.  `set_head` fails exactly when a gap is delayed. -/
theorem gaps_in_place {M : Type} {src dst : EngineLimits}
    {room : List (RawMsg M) → RawMsg M → Bool} {hi lo : Nat} (hlo : 1 ≤ lo)
    (hle : lo ≤ hi) (hhi : hi < 2 ^ 63)
    (hhwm : (Pipe.create src dst room).hwm = hi)
    (hlwm : (Pipe.create src dst room).lwm = lo)
    (hswap : (Pipe.create src dst room).dataDam = none)
    {as : List (PipeAct M)} {s : PipeSys M}
    (hrun : Run PipeSys.step (fun s a => Flowing s a ∧ Ungapped s a)
      (start (Pipe.create src dst room)) as s) :
    (s.writer = .idle →
      (∀ msg, msg ≠ .delimiter → s.pipe.checkWrite = true →
        (s.step (.write msg)).isSome = true) ∧
      (s.step .gap).isSome = true ∧
      ∀ position rest, s.toSource = .head position :: rest →
        ((s.step .head).isSome = true ↔ s.pipe.delayedGap = false)) ∧
    s.accepted = s.returned ++ s.pipe.coreMsgs ++ pendingGap s.pipe ∧
    ∀ before after, as = before ++ .gap :: after →
      ∃ t t' earlier,
        Run PipeSys.step Any (start (Pipe.create src dst room)) before t ∧
        t.step .gap = some t' ∧ Run PipeSys.step Any t' after s ∧
        t'.accepted = earlier ++ [.gap] ∧ t'.accepted <+: s.accepted ∧
        (t.pipe.delayedGap = false → earlier = t.accepted) ∧
        (t.pipe.delayedGap = true → t'.accepted = t.accepted) := by
  have hflowing : ∀ (s : PipeSys M) a, Flowing s a ∧ Ungapped s a →
      Flowing s a := fun _ _ h => h.1
  obtain ⟨hline, last, hflow⟩ :=
    LineInv.run hlo hle hhi hhwm hlwm hflowing hrun
  obtain ⟨hfifo, hgap⟩ := GapInv.run hrun
  have hdam : s.pipe.dataDam = none := by
    have hsame := hgap.dam
    rw [hswap] at hsame
    exact Option.map_eq_none_iff.mp hsame
  refine ⟨fun hw => ⟨?_, ?_, ?_⟩, ?_, ?_⟩
  · intro msg hmsg hcheck
    obtain ⟨p, hp⟩ := Option.isSome_iff_exists.mp
      (hgap.write_isSome hfifo hdam hcheck msg)
    have hdel : ¬ msg.isDelimiter = true := by rwa [RawMsg.isDelimiter_iff]
    simp [PipeSys.step, writerStep, hw, hline.inDemux, hdel, hp]
  · cases hcheck : s.pipe.checkWrite with
    | false => simp [PipeSys.step, writerStep, hw, hline.inDemux, hcheck]
    | true =>
        obtain ⟨p, hp⟩ := Option.isSome_iff_exists.mp
          (hgap.write_isSome hfifo hdam hcheck .gap)
        simp [PipeSys.step, writerStep, hw, hline.inDemux, hcheck, hp]
  · exact fun position rest hq =>
      hflow.head_isSome_iff hhi hfifo hdam hw hq
  · have hacc := hline.accepted_eq
    rw [show s.pipe.damMsgs = [] by simp [Pipe.damMsgs, hdam],
      List.append_nil] at hacc
    exact hacc
  · rintro before after rfl
    obtain ⟨t, hbefore, hrest⟩ := hrun.split
    cases hrest with
    | cons hok hstep hafter =>
        obtain ⟨hline', -⟩ :=
          LineInv.run hlo hle hhi hhwm hlwm hflowing hbefore
        obtain ⟨earlier, hearlier, hfirst, hagain⟩ :=
          hline'.gap (Step.of_step hstep)
        exact ⟨t, _, earlier, hbefore.mono fun _ _ _ => trivial, hstep,
          hafter.mono fun _ _ _ => trivial, hearlier, accepted_grows hafter,
          hfirst, hagain⟩

open PipeSys in
/-- Two gaps in a pipe that holds two messages: the first is written behind the
one message, the second finds the pipe full and waits. -/
theorem gaps_in_place_two :
    ∃ s, Run PipeSys.step (fun s a => Flowing s a ∧ Ungapped s a)
        (start (Pipe.create outEngine (inEngine 2 2 0) fun _ _ => false))
        ([.write (.data 1)] ++ .gap :: [.cas, .resume, .gap, .read, .fetch,
          .pop]) s ∧
      s.pipe.delayedGap = true ∧ (s.step .gap).isSome = true ∧
      s.accepted = [.data 1] ++ [.gap] ++ [.gap] ∧
      s.returned = [.data 1] ∧
      ∃ (t t' : PipeSys Nat) (earlier : List (RawMsg Nat)),
        t.step .gap = some t' ∧ t'.accepted = earlier ++ [.gap] ∧
        t'.accepted <+: s.accepted := by
  refine Run.exists_of_exec (P := fun s => s.writer = .idle ∧
    s.pipe.delayedGap = true ∧ s.returned = [.data 1] ∧
    s.pipe.coreMsgs = [.gap]) (by decide +kernel) ?_
  rintro s hrun ⟨hw, hdelayed, hreturned, hcore⟩
  obtain ⟨hcalls, hacc, hplace⟩ :=
    gaps_in_place (show 1 ≤ 2 by decide) (show 2 ≤ 2 by decide) (by decide)
      (by decide) (by decide) rfl hrun
  obtain ⟨t, t', earlier, _, hgap, _, hearlier, hprefix, _⟩ :=
    hplace [.write (.data 1)] _ rfl
  rw [hreturned, hcore, pendingGap, hdelayed, if_pos rfl] at hacc
  exact ⟨hdelayed, (hcalls hw).2.1, hacc, hreturned, t, t', earlier, hgap,
    hearlier, hprefix⟩

open PipeSys in
/-- A pipe of one message is full when `gap` is called.  The reader takes the
message and reports it; `set_head` has room for the gap, and fails. -/
theorem set_head_fails_on_delayed_gap :
    ∃ s, Run PipeSys.step Flowing
        (start (Pipe.create outEngine (inEngine 1 1 0) fun _ _ => false))
        [.write (.data 1), .flush, .cas, .resume, .gap, .read, .fetch, .pop]
        s ∧
      s.writer = .idle ∧ s.toSource = [.head 1] ∧
      s.pipe.delayedGap = true ∧
      (s.pipe.moveHead 1).checkWrite = true ∧
      (s.step .head).isSome = false :=
  Run.of_exec_any (by decide +kernel)

end ZeroMQ
