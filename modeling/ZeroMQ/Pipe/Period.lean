import ZeroMQ.Lib.Periodic
import ZeroMQ.Pipe.System

/-!
# The watermarks of a pipe

The watermarks a queue is created with are not checked by anyone
(`libzmq/api_thread.cpp`, `libzmq/in_engine.cpp`).  The constructor of the pipe
adds those of the two engines, and `read` reports the position of the reader
once in `hwm - lwm + 1` messages, where the number is taken as unsigned.

The default of the low watermark is `no_limit`, that is -1.  With a finite high
watermark it makes the period longer than the pipe.

## Main results

* `PipeSys.Step.reading` — what a step does to the reader's position.
* `PipeSys.exists_report` — a report is sent within one period of reads.
* `report_period_iff` — the period is between 1 and `hwm` exactly if the low
  watermark is.
-/

namespace ZeroMQ

open ZeroMQ.Lib

/-! ## Where watermarks come from -/

/-- `no_limit`, the default of both watermarks in `create_queue`. -/
def noLimit : Int := -1

/-- `no_swap`, the default size of the swap file. -/
def noSwap : Nat := 0

/-- The `in_engine_t` that `create_queue` creates; it keeps what it is given.
The size of the swap file is passed as `uint64_t` and kept as `int64_t`. -/
def inEngine (hwm lwm : Int) (swap : Nat) : EngineLimits :=
  ⟨hwm, lwm, int64 swap⟩

/-- `out_engine_t`, the engine of an exchange. -/
def outEngine : EngineLimits := ⟨0, 0, 0⟩

/-- The engines of connections, with `bp_hwm` and `bp_lwm`. -/
def connectionEngine : EngineLimits := ⟨10000, 5000, 0⟩

/-- The values of an `int64_t`. -/
def IsInt64 (n : Int) : Prop := -2 ^ 63 ≤ n ∧ n < 2 ^ 63

namespace PipeSys

variable {M : Type} {s s' t : PipeSys M} {a : PipeAct M} {as : List (PipeAct M)}

/-! ## Reads and reports -/

/-- A step that sends the reader's position to the writer. -/
def Reports (s s' : PipeSys M) : Prop :=
  s'.toSource = s.toSource ++ [.head s'.pipe.head]

/-- A read counts, and reports the position once in a period; nothing else
changes the position. -/
theorem Step.reading (hs : Step s a s') (hhwm : s.pipe.hwm ≠ 0) :
    s'.pipe.hwm = s.pipe.hwm ∧ s'.pipe.lwm = s.pipe.lwm ∧
      (s'.returned.length = s.returned.length ∧
          s'.pipe.head = s.pipe.head ∨
        s'.returned.length = s.returned.length + 1 ∧
          s'.pipe.head = u64 (s.pipe.head + 1) ∧
          (s'.pipe.head % s.pipe.period = 0 → Reports s s')) := by
  cases hs with
  | write hw hd hm hp | gapWritten hw hd hc hp =>
      have hframe := Pipe.write_frame hp
      exact ⟨hframe.hwm, hframe.lwm, .inl ⟨rfl, hframe.head⟩⟩
  | headSwapIn hw hq hsw hp =>
      have hframe := Pipe.refill_frame _ hp
      exact ⟨hframe.hwm, hframe.lwm, .inl ⟨rfl, hframe.head⟩⟩
  | head hw hq hsw hp =>
      rw [(Pipe.writeDelayedGap_cases hp).1]
      exact ⟨rfl, rfl, .inl ⟨rfl, rfl⟩⟩
  | resume hw hp =>
      rcases afterFlush_cases hp with
        ⟨_, rfl⟩ | ⟨_, _, rfl⟩ | ⟨_, _, _, rfl⟩ | ⟨_, rfl⟩ <;>
      exact ⟨rfl, rfl, .inl ⟨rfl, rfl⟩⟩
  | popQuiet hr hl hm hc =>
      rcases Pipe.countRead_cases hc with ⟨h0, _⟩ | ⟨_, _, rfl, hreport⟩
      · exact (hhwm h0).elim
      · refine ⟨rfl, rfl, .inr ⟨by simp, rfl, fun hdue => ?_⟩⟩
        exact (Bool.false_ne_true (hreport.mpr hdue)).elim
  | popReport hr hl hm hc =>
      rcases Pipe.countRead_cases hc with ⟨h0, _⟩ | ⟨_, _, rfl, _⟩
      · exact (hhwm h0).elim
      · exact ⟨rfl, rfl, .inr ⟨by simp, rfl, fun _ => rfl⟩⟩
  | _ => exact ⟨rfl, rfl, .inl ⟨rfl, rfl⟩⟩

/-- Somewhere in the run a position is reported. -/
def ReportsWithin (s : PipeSys M) (as : List (PipeAct M)) : Prop :=
  ∃ pre a u u', pre ++ [a] <+: as ∧ Run PipeSys.step Any s pre u ∧
    u.step a = some u' ∧ Reports u u'

theorem ReportsWithin.cons (h : ReportsWithin s' as) (hs : s.step a = some s') :
    ReportsWithin s (a :: as) := by
  obtain ⟨pre, b, u, u', hpre, hrun, hstep, hreports⟩ := h
  exact ⟨a :: pre, b, u, u', List.cons_prefix_cons.mpr ⟨rfl, hpre⟩,
    .cons trivial hs hrun, hstep, hreports⟩

/-- Without a report, no position that was read is a multiple of the period. -/
theorem reportsWithin_or (hrun : Run PipeSys.step Any s as t)
    (hhwm : s.pipe.hwm ≠ 0) :
    ReportsWithin s as ∨
      ∃ k, t.returned.length = s.returned.length + k ∧
        ∀ j, 0 < j → j ≤ k →
          due (2 ^ 64) s.pipe.period (s.pipe.head + j) = false := by
  induction hrun with
  | nil s => exact .inr ⟨0, rfl, fun j h0 hj => by omega⟩
  | @cons s s' t a as hok hstep rest ih =>
      obtain ⟨hhwm', hlwm', hread⟩ := (Step.of_step hstep).reading hhwm
      have hperiod : s'.pipe.period = s.pipe.period := by
        rw [Pipe.period, hhwm', hlwm', Pipe.period]
      rcases ih (by rw [hhwm']; exact hhwm) with hreports | ⟨k, hk, hnone⟩
      · exact .inl (hreports.cons hstep)
      · rw [hperiod] at hnone
        rcases hread with ⟨hlen, hhead⟩ | ⟨hlen, hhead, hreports⟩
        · rw [hhead] at hnone
          exact .inr ⟨k, by rw [hk, hlen], hnone⟩
        · by_cases hdue : s'.pipe.head % s.pipe.period = 0
          · exact .inl ⟨[], a, s, s', by simp, .nil s, hstep, hreports hdue⟩
          · refine .inr ⟨k + 1, by omega, fun j h0 hj => ?_⟩
            rw [hhead] at hnone hdue
            rcases Nat.eq_or_lt_of_le (Nat.succ_le_of_lt h0) with rfl | hlt
            · exact decide_eq_false hdue
            · rw [← hnone (j - 1) (by omega) (by omega)]
              apply due_congr
              unfold u64
              omega

theorem exists_report (hrun : Run PipeSys.step Any s as t)
    (hhwm : s.pipe.hwm ≠ 0) (hpos : 0 < s.pipe.period)
    (hreads : s.returned.length + s.pipe.period ≤ t.returned.length) :
    ReportsWithin s as := by
  rcases reportsWithin_or hrun hhwm with hreports | ⟨k, hk, hnone⟩
  · exact hreports
  · have hlt : s.pipe.period < 2 ^ 64 := sizeT_lt _
    obtain ⟨j, hj, hle, hdue⟩ :=
      exists_due (a := s.pipe.head) hpos (Nat.le_of_lt hlt)
    have hfalse := hnone (j - s.pipe.head) (by omega) (by omega)
    rw [Nat.add_sub_cancel' (Nat.le_of_lt hj), hdue] at hfalse
    cases hfalse

theorem watermarks_of_run {p : Pipe M}
    (hrun : Run PipeSys.step Any (start p) as s) (hhwm : p.hwm ≠ 0) :
    s.pipe.hwm = p.hwm ∧ s.pipe.lwm = p.lwm := by
  refine invariant_of_step (I := fun s : PipeSys M =>
    s.pipe.hwm = p.hwm ∧ s.pipe.lwm = p.lwm) ?_ hrun ⟨rfl, rfl⟩
  rintro s a s' ⟨h1, h2⟩ - hs
  obtain ⟨h1', h2', -⟩ := hs.reading (by rw [h1]; exact hhwm)
  exact ⟨h1'.trans h1, h2'.trans h2⟩

end PipeSys

/-! ## The watermarks that make sense -/

/-- The watermarks of a pipe are numbers of type `int64_t`, the period of its
reports is between 1 and the high watermark, and of so many reads one is
reported. -/
structure PeriodDefined {M : Type} (p : Pipe M) : Prop where
  hwm : IsInt64 p.hwm
  lwm : IsInt64 p.lwm
  pos : 1 ≤ p.period
  le : (p.period : Int) ≤ p.hwm
  reports : ∀ (before after : List (PipeAct M)) (s t : PipeSys M),
    Run PipeSys.step Any (.start p) before s → Run PipeSys.step Any s after t →
    (t.returned.length : Int) = s.returned.length + p.hwm →
    PipeSys.ReportsWithin s after

theorem Pipe.period_le_iff {M : Type} {p : Pipe M} (hhwm : IsInt64 p.hwm)
    (hlwm : IsInt64 p.lwm) :
    (1 ≤ p.period ∧ (p.period : Int) ≤ p.hwm) ↔
      1 ≤ p.lwm ∧ p.lwm ≤ p.hwm := by
  obtain ⟨h1, h2⟩ := hhwm
  obtain ⟨h3, h4⟩ := hlwm
  unfold Pipe.period sizeT
  omega

/-- **The period of the reports.**  For every queue and every engine at the
other end of its pipe: the sums the constructor forms are watermarks with which
`read` works exactly if the low watermark is at least 1 and at most the high
watermark. -/
theorem report_period_iff {M : Type} (hwm lwm : Int) (swap : Nat)
    (peer : EngineLimits) (room : List (RawMsg M) → RawMsg M → Bool)
    (hfinite : (Pipe.create peer (inEngine hwm lwm swap) room).hwm ≠ 0) :
    PeriodDefined (Pipe.create peer (inEngine hwm lwm swap) room) ↔
      IsInt64 (peer.hwm + hwm) ∧ 1 ≤ peer.lwm + lwm ∧
        peer.lwm + lwm ≤ peer.hwm + hwm := by
  have hinf : ¬ (peer.hwm = -1 ∨ hwm = -1) := by
    intro hinf
    exact hfinite (if_pos hinf)
  have hp : (Pipe.create peer (inEngine hwm lwm swap) room).hwm =
      peer.hwm + hwm := if_neg hinf
  have hl : (Pipe.create peer (inEngine hwm lwm swap) room).lwm =
      peer.lwm + lwm := if_neg hinf
  rw [← hp, ← hl]
  generalize Pipe.create peer (inEngine hwm lwm swap) room = p at hfinite
  constructor
  · intro h
    exact ⟨h.hwm, (Pipe.period_le_iff h.hwm h.lwm).mp ⟨h.pos, h.le⟩⟩
  · rintro ⟨hhwm, hpos, hle⟩
    have hlwm : IsInt64 p.lwm := by
      obtain ⟨h1, h2⟩ := hhwm
      exact ⟨by omega, by omega⟩
    obtain ⟨hpos, hle⟩ := (Pipe.period_le_iff hhwm hlwm).mpr ⟨hpos, hle⟩
    refine ⟨hhwm, hlwm, hpos, hle, ?_⟩
    intro before after s t hbefore hafter hreads
    obtain ⟨hsame, hsame'⟩ := PipeSys.watermarks_of_run hbefore hfinite
    have hperiod : s.pipe.period = p.period := by
      rw [Pipe.period, hsame, hsame', Pipe.period]
    rw [← hperiod] at hpos hle
    exact PipeSys.exists_report hafter (by rw [hsame]; exact hfinite) hpos
      (by omega)

/-- A queue with a high watermark of 5 and the default low watermark, at the end
of a connection. -/
theorem report_period_iff_connection :
    (Pipe.create (M := Nat) connectionEngine (inEngine 5 noLimit noSwap)
        fun _ _ => true).hwm ≠ 0 ∧
      PeriodDefined (Pipe.create (M := Nat) connectionEngine
        (inEngine 5 noLimit noSwap) fun _ _ => true) :=
  ⟨by decide, (report_period_iff 5 noLimit noSwap connectionEngine
    (fun _ _ => true) (by decide)).mpr
      ⟨⟨by decide, by decide⟩, by decide, by decide⟩⟩

/-- The same queue, bound to an exchange of its own process.  The period is 7, and
five messages are read without a report.  With a low watermark
of 6 the period is zero, and the first read divides by it. -/
theorem report_period_default_lwm :
    (Pipe.create (M := Nat) outEngine (inEngine 5 noLimit noSwap)
        fun _ _ => true).period = 7 ∧
      (∃ s, Run PipeSys.step Any
        (.start (Pipe.create (M := Nat) outEngine (inEngine 5 noLimit noSwap)
          fun _ _ => true))
        [.write (.data 1), .write (.data 2), .write (.data 3),
          .write (.data 4), .write (.data 5), .flush, .cas, .resume, .read,
          .fetch, .pop, .read, .pop, .read, .pop, .read, .pop, .read, .pop] s ∧
        s.returned.length = 5 ∧ s.toSource = []) ∧
      ¬ PeriodDefined (Pipe.create (M := Nat) outEngine
        (inEngine 5 noLimit noSwap) fun _ _ => true) ∧
      (Pipe.create (M := Nat) outEngine (inEngine 5 6 noSwap)
        fun _ _ => true).countRead.isNone = true := by
  refine ⟨by decide, Run.of_exec_any (by decide +kernel), ?_, by decide⟩
  intro h
  exact absurd h.le (by decide)

end ZeroMQ
