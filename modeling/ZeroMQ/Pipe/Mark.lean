import ZeroMQ.Pipe.Flow
import ZeroMQ.Pipe.Gap

/-!
# The high watermark of a pipe without a swap file

`check_write` compares `in_core_msg_cnt` with the high watermark, `write` tests
whether they are equal.  In a pipe without a swap file the two agree: the
counter never passes the watermark, because it is what was written and not yet
reported as read, and reports arrive in order.  This holds for any watermarks,
the two engines' sums being whatever they are, and through the shutdown, where
delimiters are written and read without being counted.

## Main results

* `MarkInv.step` — the counter, the reports on their way and what was read fit
  together.
* `full_of_run` — `check_write` returns false exactly at the high watermark.
* `write_of_run` — otherwise `write` puts the message into the main memory.
-/

namespace ZeroMQ

open ZeroMQ.Lib

namespace PipeSys

variable {M : Type} {s s' : PipeSys M} {a : PipeAct M}

/-- The reports on their way to the writer, oldest first: each is a number of
messages read that is at least `last`, and at most `read`. -/
inductive Positions : Nat → Nat → List ToSource → Prop where
  | nil {last read : Nat} (h : last ≤ read) : Positions last read []
  | head {last read k : Nat} {rest : List ToSource} (h : last ≤ k)
      (hrest : Positions k read rest) :
      Positions last read (.head (u64 k) :: rest)
  | terminatePipe {last read : Nat} {rest : List ToSource}
      (hrest : Positions last read rest) :
      Positions last read (.terminatePipe :: rest)

section Positions

variable {last read read' : Nat} {sent : List ToSource}

theorem Positions.le (h : Positions last read sent) : last ≤ read := by
  induction h with
  | nil h => exact h
  | head h _ ih => exact Nat.le_trans h ih
  | terminatePipe _ ih => exact ih

theorem Positions.mono (h : Positions last read sent) (hle : read ≤ read') :
    Positions last read' sent := by
  induction h with
  | nil h => exact .nil (Nat.le_trans h hle)
  | head h _ ih => exact .head h (ih hle)
  | terminatePipe _ ih => exact .terminatePipe (ih hle)

theorem Positions.append {more : List ToSource} (h : Positions last read sent)
    (hmore : ∀ k, k ≤ read → Positions k read more) :
    Positions last read (sent ++ more) := by
  induction h with
  | nil h => exact hmore _ h
  | head h _ ih => exact .head h (ih hmore)
  | terminatePipe _ ih => exact .terminatePipe (ih hmore)

theorem Positions.report (h : Positions last read sent) :
    Positions last read (sent ++ [.head (u64 read)]) :=
  h.append fun _ hk => .head hk (.nil (Nat.le_refl _))

theorem Positions.shutdown (h : Positions last read sent) :
    Positions last read (sent ++ [.terminatePipe]) :=
  h.append fun _ hk => .terminatePipe (.nil hk)

end Positions

/-- The counters of a pipe without a swap file.  `last` is the number of
messages last reported to the writer, before wrapping. -/
structure MarkInv (mark : Int) (last : Nat) (s : PipeSys M) : Prop where
  hwm : s.pipe.hwm = mark
  noDam : s.pipe.dataDam = none
  noSwap : s.pipe.swapping = false
  head : s.pipe.head = u64 s.returned.length
  lastHead : s.pipe.lastHeadPosition = u64 last
  reports : Positions last s.returned.length s.toSource
  core : s.pipe.inCoreMsgCnt + last =
    (s.pipe.pipe.slots.filter RawMsg.payload).length
  coreLe : s.pipe.inCoreMsgCnt ≤ sizeT mark

theorem MarkInv.start {src dst : EngineLimits}
    (room : List (RawMsg M) → RawMsg M → Bool)
    (hswap : src.swapSize + dst.swapSize ≤ 0) :
    MarkInv (Pipe.create src dst room).hwm 0
      (start (Pipe.create src dst room)) where
  hwm := rfl
  noDam := by
    have hneg : ¬ src.swapSize + dst.swapSize > 0 := by omega
    simp [PipeSys.start, Pipe.create, hneg]
  noSwap := rfl
  head := rfl
  lastHead := rfl
  reports := .nil (Nat.le_refl _)
  core := rfl
  coreLe := Nat.zero_le _

variable {mark : Int} {last : Nat}

theorem MarkInv.write {msg : RawMsg M} {p : Pipe M} (h : MarkInv mark last s)
    (hne : mark ≠ 0) (hm : msg ≠ .delimiter) (hp : s.pipe.write msg = some p)
    {w : WriterPc} {accepted : List (RawMsg M)} :
    MarkInv mark last
      { s with pipe := p, writer := w, accepted := accepted } := by
  rcases (Pipe.write_cases hp).2 with ⟨d, hd, _, _, _⟩ | ⟨hfull, _, rfl⟩
  · rw [h.noDam] at hd
    cases hd
  · have hlt : s.pipe.inCoreMsgCnt < sizeT mark := by
      have hle := h.coreLe
      have hneq : s.pipe.inCoreMsgCnt ≠ sizeT mark := by
        intro heq
        simp [Pipe.full, h.hwm, heq, hne] at hfull
      omega
    have hsize := sizeT_lt mark
    have hcnt : (s.pipe.storeCore msg).inCoreMsgCnt =
        s.pipe.inCoreMsgCnt + 1 := u64_of_lt (by omega)
    have hpay : msg.payload = true := (RawMsg.payload_iff msg).mpr hm
    refine { h with core := ?_, coreLe := ?_ }
    · show (s.pipe.storeCore msg).inCoreMsgCnt + last =
        ((s.pipe.pipe.slots ++ [msg]).filter RawMsg.payload).length
      have hcore := h.core
      have hone : [msg].filter RawMsg.payload = [msg] := by simp [hpay]
      rw [List.filter_append, hone, List.length_append, List.length_singleton]
      omega
    · show (s.pipe.storeCore msg).inCoreMsgCnt ≤ sizeT mark
      omega

theorem FifoInv.returned_le (h : FifoInv s) :
    s.returned.length ≤ (s.pipe.pipe.slots.filter RawMsg.payload).length := by
  rw [h.returned]
  exact ((List.take_sublist _ _).filter _).length_le

theorem MarkInv.report {position : Nat} {rest : List ToSource}
    (h : MarkInv mark last s) (hfifo : FifoInv s)
    (hq : s.toSource = .head position :: rest) :
    ∃ k, MarkInv mark k
      { s with pipe := s.pipe.moveHead position, toSource := rest } := by
  have hreports := h.reports
  rw [hq] at hreports
  cases hreports with
  | @head _ _ k _ hle hrest =>
      have hread := hfifo.returned_le
      have hk := hrest.le
      have hcore := h.core
      have hbound := h.coreLe
      have hsize := sizeT_lt mark
      have hmove : (s.pipe.moveHead (u64 k)).inCoreMsgCnt =
          s.pipe.inCoreMsgCnt - (k - last) :=
        Pipe.moveHead_inCoreMsgCnt h.lastHead hle (by omega) (by omega)
      refine ⟨k, { h with
        lastHead := rfl, reports := hrest, core := ?_, coreLe := ?_ }⟩
      · show (s.pipe.moveHead (u64 k)).inCoreMsgCnt + k =
          (s.pipe.pipe.slots.filter RawMsg.payload).length
        omega
      · show (s.pipe.moveHead (u64 k)).inCoreMsgCnt ≤ sizeT mark
        omega

theorem MarkInv.pop {msg : RawMsg M} {p : Pipe M} {report : Bool}
    (h : MarkInv mark last s) (hne : mark ≠ 0)
    (hc : { s.pipe with pipe := s.pipe.pipe.pop }.countRead =
      some (p, report)) {r : ReaderPc} :
    MarkInv mark last
      { s with
        pipe := p
        reader := r
        toSource := if report then s.toSource ++ [.head p.head]
          else s.toSource
        returned := s.returned ++ [msg] } := by
  rcases Pipe.countRead_cases hc with ⟨h0, _, _⟩ | ⟨_, _, rfl, _⟩
  · exact absurd (h.hwm.symm.trans h0) hne
  · have hhead : u64 (s.pipe.head + 1) = u64 (s.returned.length + 1) := by
      rw [h.head, u64, u64, u64, Nat.mod_add_mod]
    have hlen : (s.returned ++ [msg]).length = s.returned.length + 1 := by
      simp
    have hmono := h.reports.mono (Nat.le_succ s.returned.length)
    refine { h with head := ?_, reports := ?_ }
    · show u64 (s.pipe.head + 1) = u64 (s.returned ++ [msg]).length
      rw [hlen, hhead]
    · show Positions last (s.returned ++ [msg]).length
        (if report then s.toSource ++ [.head (u64 (s.pipe.head + 1))]
          else s.toSource)
      rw [hlen, hhead]
      cases report with
      | false => exact hmono
      | true => exact hmono.report

theorem MarkInv.step (h : ∃ last, MarkInv mark last s) (hne : mark ≠ 0)
    (hfifo : FifoInv s) (hs : Step s a s') : ∃ last, MarkInv mark last s' := by
  obtain ⟨last, h⟩ := h
  cases hs with
  | write hw hd hm hp => exact ⟨last, h.write hne hm hp⟩
  | gapWritten hw hd hc hp => exact ⟨last, h.write hne (by simp) hp⟩
  | terminateWriter hw hd ht =>
      refine ⟨last, { h with core := ?_ }⟩
      have hdel : (RawMsg.delimiter : RawMsg M).payload = false := rfl
      simpa [Ypipe.write, List.filter_append, hdel] using h.core
  | headSwapIn hw hq hsw hp =>
      have hoff := h.noSwap
      simp [Pipe.wantsSwapIn, Pipe.moveHead, hoff] at hsw
  | head hw hq hsw hp =>
      obtain ⟨rfl, -⟩ := Pipe.writeDelayedGap_cases hp
      exact h.report hfifo hq
  | terminatePipe hw hq hsrc hdst =>
      have hreports := h.reports
      rw [hq] at hreports
      cases hreports with
      | terminatePipe hrest => exact ⟨last, { h with reports := hrest }⟩
  | resume hw hp =>
      rcases afterFlush_cases hp with
        ⟨_, rfl⟩ | ⟨_, _, rfl⟩ | ⟨_, _, _, rfl⟩ | ⟨_, rfl⟩
      · exact ⟨last, { h with }⟩
      · exact ⟨last, { h with }⟩
      · exact ⟨last, { h with noSwap := rfl }⟩
      · exact ⟨last, { h with }⟩
  | fetchFound hr hf
  | fetchNone hr hf => exact ⟨last, { h with core := by simpa using h.core }⟩
  | popDelimiter hr hl ht | terminateReader hr hm ht =>
      exact ⟨last, { h with reports := h.reports.shutdown }⟩
  | popQuiet hr hl hm hc => exact ⟨last, h.pop hne hc⟩
  | popReport hr hl hm hc => exact ⟨last, h.pop hne hc⟩
  | _ => exact ⟨last, { h with }⟩

/-! ## `check_write` and `write` -/

section Run

variable {src dst : EngineLimits} {room : List (RawMsg M) → RawMsg M → Bool}
  {ok : PipeSys M → PipeAct M → Prop} {as : List (PipeAct M)}

theorem dataDam_of_run (hswap : src.swapSize + dst.swapSize ≤ 0)
    (hrun : Run PipeSys.step ok (.start (Pipe.create src dst room)) as s) :
    s.pipe.dataDam = none := by
  have hdam := (GapInv.run hrun).2.dam
  have hneg : ¬ src.swapSize + dst.swapSize > 0 := by omega
  simpa [Pipe.create, hneg] using hdam

/-- Below the high watermark the message goes to the main memory. -/
theorem write_of_run (hswap : src.swapSize + dst.swapSize ≤ 0)
    (hrun : Run PipeSys.step ok (.start (Pipe.create src dst room)) as s)
    (hcheck : s.pipe.checkWrite = true) (msg : RawMsg M) :
    s.pipe.write msg = some (s.pipe.storeCore msg) := by
  obtain ⟨hfifo, hgap⟩ := GapInv.run hrun
  have hdam := dataDam_of_run hswap hrun
  obtain ⟨p, hp⟩ := Option.isSome_iff_exists.mp
    (hgap.write_isSome hfifo hdam hcheck msg)
  rcases (Pipe.write_cases hp).2 with ⟨d, hd, _, _, _⟩ | ⟨_, _, rfl⟩
  · rw [hdam] at hd
    cases hd
  · exact hp

end Run

end PipeSys

end ZeroMQ
