import ZeroMQ.Pipe.Fifo
import ZeroMQ.Pipe.Sleep

/-!
# The shutdown handshake

Either end of a pipe can start its shutdown.  The writer sends a delimiter
through the pipe; the reader, on meeting it or on shutting down itself, sends
`terminate_pipe`; the writer drops the pipe and answers `terminate_pipe_ack`;
the reader then deletes it.  Head reports, `revive` commands and the delimiter
may all be under way when this happens.

The handshake passes through four phases.  In each of them it is known which
commands are in flight: `terminate_pipe` is the last command to the writer,
because the reader takes no message after sending it, and `terminate_pipe_ack`
is the last command to the reader, because the writer has dropped the pipe.

## Main results

* `Handshake.step` — the phases, one after the other.
* `shutdown_handshake` — the pipe is deleted at most once, at a moment when
  nothing else refers to it, and is not used afterwards.
-/

namespace ZeroMQ.PipeSys

open ZeroMQ.Lib

variable {M : Type}

/-- The callers' side of the bargain, for a pipe without swap: after
`terminate_writer` the engine writes nothing, and gaps are announced when there
is room for them. -/
def Orderly (s : PipeSys M) : PipeAct M → Prop
  | .write _ => s.pipe.writerTerminating = false
  | .gap => s.pipe.writerTerminating = false ∧ s.pipe.checkWrite = true
  | _ => True

instance (s : PipeSys M) (a : PipeAct M) : Decidable (Orderly s a) :=
  match a with
  | .write _ => inferInstanceAs (Decidable (_ = _))
  | .gap => inferInstanceAs (Decidable (_ ∧ _))
  | .flush | .terminateWriter | .head | .terminatePipe | .cas | .set
  | .sendRevive | .resume | .read | .fetch | .die | .pop | .revive
  | .terminateReader | .terminatePipeAck => .isTrue trivial

variable {s s' : PipeSys M} {a : PipeAct M} {p : Pipe M}

/-! ## The contents of the pipe -/

/-- The delimiter, once written, is the last slot; and the reader that has sent
`terminate_pipe` takes nothing more. -/
structure ContentInv (s : PipeSys M) : Prop where
  sleep : SleepInv s
  noDam : s.pipe.dataDam = none
  noSwap : s.pipe.swapping = false
  content : (∀ msg ∈ s.pipe.pipe.slots, msg.payload = true) ∨
    (Closed s ∧ ∃ before, s.pipe.pipe.slots = before ++ [.delimiter] ∧
      ∀ msg ∈ before, msg.payload = true)
  down : s.readerDown = true →
    s.pipe.readerTerminating = true ∧ s.reader = .idle
  ended : s.pipe.readerTerminating = true → s.readerDown = true ∨
    (Closed s ∧ s.pipe.pipe.front = s.pipe.pipe.slots.length)
  notPopping : s.pipe.readerTerminating = true → s.reader ≠ .pop

theorem ContentInv.start {src dst : EngineLimits}
    {room : List (RawMsg M) → RawMsg M → Bool}
    (hswap : src.swapSize + dst.swapSize ≤ 0) :
    ContentInv (start (Pipe.create src dst room)) where
  sleep := SleepInv.start src dst room
  noDam := by
    simp only [PipeSys.start, Pipe.create]
    rw [if_neg (by omega)]
  noSwap := rfl
  content := .inl (by simp [PipeSys.start, Pipe.create, Ypipe.create])
  down := by simp [PipeSys.start]
  ended := by simp [PipeSys.start, Pipe.create]
  notPopping := by simp [PipeSys.start]

/-- A prefetched message is a stored one. -/
theorem ContentInv.front_lt (h : ContentInv s)
    (hp : s.pipe.pipe.r ≠ some s.pipe.pipe.front) :
    s.pipe.pipe.front < s.pipe.pipe.slots.length := by
  have hlt := h.sleep.proto.front_lt_of_prefetched hp
  have hback : s.pipe.pipe.w ≤ s.pipe.pipe.slots.length := h.sleep.proto.wBack
  omega

/-- An engine that may still read has nothing left to read once it has sent
`terminate_pipe`. -/
theorem ContentInv.nothing_left (h : ContentInv s)
    (ht : s.pipe.readerTerminating = true) (hd : s.readerDown = false) :
    ¬ s.pipe.pipe.front < s.pipe.pipe.slots.length := by
  rcases h.ended ht with hdown | ⟨_, heq⟩
  · simp [hd] at hdown
  · omega

theorem ContentInv.readerDown_of_not_idle (h : ContentInv s)
    (hr : s.reader ≠ .idle) : s.readerDown = false := by
  cases hd : s.readerDown with
  | false => rfl
  | true => exact absurd (h.down hd).2 hr

/-- Only the delimiter is taken from behind the messages. -/
theorem ContentInv.last_of_delimiter (h : ContentInv s)
    (hl : s.pipe.pipe.load = some .delimiter) :
    Closed s ∧ s.pipe.pipe.front + 1 = s.pipe.pipe.slots.length := by
  have hnot : ¬ (RawMsg.delimiter : RawMsg M).payload = true := by
    simp [RawMsg.payload, RawMsg.isDelimiter]
  rcases h.content with hpay | ⟨hc, before, hslots, hpay⟩
  · exact absurd (hpay _ (List.mem_of_getElem? hl)) hnot
  · refine ⟨hc, ?_⟩
    have hdel : Delimited before s := ⟨hc, [], hslots, by simp⟩
    rw [hdel.front_eq hpay hl, hslots]
    simp

/-- The writer stores a message only before the delimiter. -/
theorem ContentInv.store {msg : RawMsg M} (h : ContentInv s)
    (hw : s.writer = .idle) (ht : s.pipe.writerTerminating = false)
    (hm : msg ≠ .delimiter) (hp : s.pipe.write msg = some p) :
    p = s.pipe.storeCore msg ∧ ¬ Closed s ∧
      ∀ m ∈ (s.pipe.storeCore msg).pipe.slots, m.payload = true := by
  have hopen := not_closed_of_idle hw ht
  rcases (Pipe.write_cases hp).2 with ⟨d, hd, _⟩ | ⟨_, _, rfl⟩
  · rw [h.noDam] at hd
    cases hd
  · refine ⟨rfl, hopen, ?_⟩
    have hpay := h.content.resolve_right fun hc => hopen hc.1
    intro m hmem
    rw [Pipe.storeCore, Ypipe.write, List.mem_append,
      List.mem_singleton] at hmem
    rcases hmem with hmem | rfl
    · exact hpay m hmem
    · exact (RawMsg.payload_iff _).mpr hm

/-- A step that leaves the slots and the reader's side alone. -/
theorem ContentInv.of_writer (h : ContentInv s) (hsleep : SleepInv s')
    (hclosed : Closed s → Closed s')
    (hslots : s'.pipe.pipe.slots = s.pipe.pipe.slots)
    (hfront : s'.pipe.pipe.front = s.pipe.pipe.front)
    (hdam : s'.pipe.dataDam = s.pipe.dataDam)
    (hsw : s'.pipe.swapping = s.pipe.swapping)
    (ht : s'.pipe.readerTerminating = s.pipe.readerTerminating)
    (hd : s'.readerDown = s.readerDown) (hr : s'.reader = s.reader) :
    ContentInv s' where
  sleep := hsleep
  noDam := hdam.trans h.noDam
  noSwap := hsw.trans h.noSwap
  content := by
    rw [hslots]
    exact h.content.imp id fun hc => ⟨hclosed hc.1, hc.2⟩
  down := by rw [hd, ht, hr]; exact h.down
  ended := by
    rw [ht, hd, hslots, hfront]
    exact fun hterm => (h.ended hterm).imp id fun hc => ⟨hclosed hc.1, hc.2⟩
  notPopping := by rw [ht, hr]; exact h.notPopping

theorem ContentInv.write {msg : RawMsg M} {w : WriterPc}
    {accepted : List (RawMsg M)} (h : ContentInv s)
    (hsleep : SleepInv { s with pipe := p, writer := w, accepted := accepted })
    (hw : s.writer = .idle) (ht : s.pipe.writerTerminating = false)
    (hm : msg ≠ .delimiter) (hp : s.pipe.write msg = some p) :
    ContentInv { s with pipe := p, writer := w, accepted := accepted } := by
  obtain ⟨rfl, hopen, hpay⟩ := h.store hw ht hm hp
  exact
    { h with
      sleep := hsleep
      content := .inl hpay
      ended := fun hterm => .inl
        ((h.ended hterm).resolve_right fun hc => hopen hc.1) }

theorem ContentInv.pop {report : Bool} {toSource : List ToSource}
    {returned : List (RawMsg M)} (h : ContentInv s) (hr : s.reader = .pop)
    (hc : { s.pipe with pipe := s.pipe.pipe.pop }.countRead =
      some (p, report))
    (hsleep : SleepInv
      { s with
        pipe := p, reader := .idle, toSource := toSource
        returned := returned }) :
    ContentInv
      { s with
        pipe := p, reader := .idle, toSource := toSource
        returned := returned } := by
  have ht : s.pipe.readerTerminating = false := by
    simpa using fun ht => h.notPopping ht hr
  obtain ⟨head, rfl⟩ := Pipe.countRead_eq hc
  exact
    { h with
      sleep := hsleep
      down := fun hd => ⟨(h.down hd).1, rfl⟩
      ended := by simp [ht]
      notPopping := by simp }

theorem ContentInv.step (h : ContentInv s) (hok : Orderly s a)
    (hs : Step s a s') : ContentInv s' := by
  have hsleep := h.sleep.step hs
  have hclosed : Closed s → Closed s' := fun hc => hc.step hs
  cases hs with
  | write hw hd hm hp => exact h.write hsleep hw hok hm hp
  | gapWritten hw hd hc hp => exact h.write hsleep hw hok.1 (by simp) hp
  | gapDelayed hw hd hc => simp [hok.2] at hc
  | terminateWriterAgain hw hd ht => exact h
  | terminateWriter hw hd ht =>
      have hopen := not_closed_of_idle hw ht
      have hpay := h.content.resolve_right fun hc => hopen hc.1
      exact
        { h with
          sleep := hsleep
          content := .inr ⟨.inr rfl, s.pipe.pipe.slots, rfl, hpay⟩
          ended := fun hterm => .inl
            ((h.ended hterm).resolve_right fun hc => hopen hc.1) }
  | headSwapIn hw hq hsw hp =>
      have hoff := h.noSwap
      rw [Pipe.wantsSwapIn, Bool.and_eq_true] at hsw
      have hon : s.pipe.swapping = true := hsw.1
      rw [hoff] at hon
      cases hon
  | head hw hq hsw hp =>
      have hp' := (Pipe.writeDelayedGap_cases hp).1
      subst hp'
      exact h.of_writer hsleep hclosed rfl rfl rfl rfl rfl rfl rfl
  | resume hw hp =>
      rcases afterFlush_cases hp with
        ⟨_, rfl⟩ | ⟨_, _, rfl⟩ | ⟨_, _, _, rfl⟩ | ⟨_, rfl⟩
      · exact h.of_writer hsleep hclosed rfl rfl rfl rfl rfl rfl rfl
      · exact h.of_writer hsleep hclosed rfl rfl rfl rfl rfl rfl rfl
      · exact h.of_writer hsleep hclosed rfl rfl rfl h.noSwap.symm rfl rfl rfl
      · exact h.of_writer hsleep hclosed rfl rfl rfl rfl rfl rfl rfl
  | readDead hr hm hd ha => exact h
  | readPop hr hm hd ha hf =>
      have hlt := h.front_lt (hsleep.popping rfl).2
      exact
        { h with
          sleep := hsleep
          down := by simp [hd]
          notPopping := fun ht => absurd hlt (h.nothing_left ht hd) }
  | readFetch hr hm hd ha hf =>
      exact
        { h with
          sleep := hsleep
          down := by simp [hd]
          notPopping := by simp }
  | fetchFound hr hf =>
      have hd := h.readerDown_of_not_idle (by simp [hr])
      have hlt : s.pipe.pipe.front < s.pipe.pipe.slots.length := by
        obtain ⟨_, _, hlt⟩ := h.sleep.proto.fetch_true
          (h.sleep.not_asleep_of_fetch hr) h.sleep.stop hf
        have hback : s.pipe.pipe.w ≤ s.pipe.pipe.slots.length :=
          h.sleep.proto.wBack
        omega
      exact
        { h with
          sleep := hsleep
          content := by simpa [Closed] using h.content
          down := by simp [hd]
          ended := by simpa [Closed] using h.ended
          notPopping := fun ht => absurd hlt (h.nothing_left ht hd) }
  | fetchNone hr hf =>
      have hd := h.readerDown_of_not_idle (by simp [hr])
      exact
        { h with
          sleep := hsleep
          content := by simpa [Closed] using h.content
          down := by simp [hd]
          ended := by simpa [Closed] using h.ended
          notPopping := by simp }
  | die hr =>
      exact
        { h with
          sleep := hsleep
          down := fun hd => ⟨(h.down hd).1, rfl⟩
          notPopping := by simp }
  | popDelimiterAgain hr hl ht => exact absurd hr (h.notPopping ht)
  | popDelimiter hr hl ht =>
      obtain ⟨hc, hlast⟩ := h.last_of_delimiter hl
      exact
        { h with
          sleep := hsleep
          down := fun _ => ⟨rfl, rfl⟩
          ended := fun _ => .inr ⟨hc, hlast⟩
          notPopping := by simp }
  | popQuiet hr hl hm hc => exact h.pop hr hc hsleep
  | popReport hr hl hm hc => exact h.pop hr hc hsleep
  | terminateReaderAgain hr hm ht =>
      exact
        { h with
          sleep := hsleep
          down := fun _ => ⟨ht, hr⟩
          ended := fun _ => .inl rfl }
  | terminateReader hr hm ht =>
      exact
        { h with
          sleep := hsleep
          down := fun _ => ⟨rfl, hr⟩
          ended := fun _ => .inl rfl
          notPopping := by simp [hr] }
  | _ => exact h.of_writer hsleep hclosed rfl rfl rfl rfl rfl rfl rfl

/-! ## The phases -/

/-- The phases of the handshake: not begun; `terminate_pipe` is on its way;
`terminate_pipe_ack` is on its way; the pipe is deleted. -/
inductive Phase where
  | running
  | requested
  | acknowledged
  | deleted
  deriving DecidableEq, Repr

namespace Phase

/-- The writer still holds the pipe. -/
def writerHolds : Phase → Bool
  | running | requested => true
  | acknowledged | deleted => false

/-- The reader still holds the pipe. -/
def readerHolds : Phase → Bool
  | deleted => false
  | _ => true

/-- The commands to the writer that belong to the handshake. -/
def toSource : Phase → List ToSource
  | requested => [.terminatePipe]
  | _ => []

/-- The commands to the reader that belong to the handshake. -/
def toDestination : Phase → List ToDestination
  | acknowledged => [.terminatePipeAck]
  | _ => []

end Phase

/-- What is known in a phase of the handshake: who holds the pipe, which
commands are in flight and how many were sent. -/
structure Handshake (ph : Phase) (s : PipeSys M) : Prop where
  terminating : s.pipe.readerTerminating = (ph != .running)
  source : s.pipe.source = ph.writerHolds
  inDemux : s.inDemux = ph.writerHolds
  writer : ph.writerHolds = false → s.writer = .idle
  destination : s.pipe.destination = ph.readerHolds
  inMux : s.inMux = ph.readerHolds
  reader : ph.readerHolds = false → s.reader = .idle
  toSource : ∃ heads, s.toSource = heads ++ ph.toSource ∧
    (∀ c ∈ heads, ∃ position, c = .head position) ∧
    (ph.writerHolds = false → heads = [])
  toDestination : ∃ revives, s.toDestination = revives ++ ph.toDestination ∧
    (∀ c ∈ revives, c = .revive) ∧ (ph.readerHolds = false → revives = [])
  sentTerminatePipe : s.sentTerminatePipe = if ph = .running then 0 else 1
  sentTerminatePipeAck : s.sentTerminatePipeAck =
    if ph.writerHolds then 0 else 1
  deletions : s.deletions = if ph.readerHolds then 0 else 1

theorem Handshake.start (p : Pipe M) (hp : p.readerTerminating = false)
    (hsrc : p.source = true) (hdst : p.destination = true) :
    Handshake .running (start p) where
  terminating := hp
  source := hsrc
  inDemux := rfl
  writer := by simp [Phase.writerHolds]
  destination := hdst
  inMux := rfl
  reader := by simp [Phase.readerHolds]
  toSource := ⟨[], rfl, by simp, by simp⟩
  toDestination := ⟨[], rfl, by simp, by simp⟩
  sentTerminatePipe := rfl
  sentTerminatePipeAck := rfl
  deletions := rfl

variable {ph : Phase}

/-- A writer in the middle of an operation holds the pipe. -/
theorem Handshake.writerHolds (h : Handshake ph s) (hw : s.writer ≠ .idle) :
    ph.writerHolds = true := by
  cases hp : ph.writerHolds with
  | true => rfl
  | false => exact absurd (h.writer hp) hw

/-- A reader in the middle of an operation holds the pipe. -/
theorem Handshake.readerHolds (h : Handshake ph s) (hr : s.reader ≠ .idle) :
    ph.readerHolds = true := by
  cases hp : ph.readerHolds with
  | true => rfl
  | false => exact absurd (h.reader hp) hr

/-- An operation of the writer on a pipe it holds; it may send `revive`. -/
theorem Handshake.writerOp {w : WriterPc} {accepted : List (RawMsg M)}
    (h : Handshake ph s) (hholds : ph.writerHolds = true)
    (hsrc : p.source = s.pipe.source)
    (hdst : p.destination = s.pipe.destination)
    (hterm : p.readerTerminating = s.pipe.readerTerminating) :
    Handshake ph { s with pipe := p, writer := w, accepted := accepted } :=
  { h with
    terminating := hterm.trans h.terminating
    source := hsrc.trans h.source
    writer := by simp [hholds]
    destination := hdst.trans h.destination }

/-- An operation of the reader on a pipe it holds. -/
theorem Handshake.readerOp {r : ReaderPc} {down : Bool}
    {returned : List (RawMsg M)} (h : Handshake ph s)
    (hholds : ph.readerHolds = true) (hsrc : p.source = s.pipe.source)
    (hdst : p.destination = s.pipe.destination)
    (hterm : p.readerTerminating = s.pipe.readerTerminating) :
    Handshake ph
      { s with
        pipe := p
        reader := r
        readerDown := down
        returned := returned } :=
  { h with
    terminating := hterm.trans h.terminating
    source := hsrc.trans h.source
    destination := hdst.trans h.destination
    reader := by simp [hholds] }

theorem Handshake.head {position : Nat} {rest : List ToSource} {w : WriterPc}
    (h : Handshake ph s) (hq : s.toSource = .head position :: rest)
    (hsrc : p.source = s.pipe.source)
    (hdst : p.destination = s.pipe.destination)
    (hterm : p.readerTerminating = s.pipe.readerTerminating) :
    Handshake ph { s with pipe := p, writer := w, toSource := rest } := by
  obtain ⟨heads, heq, hheads, hnil⟩ := h.toSource
  rw [hq] at heq
  cases heads with
  | nil => cases ph <;> simp [Phase.toSource] at heq
  | cons c heads =>
      rw [List.cons_append, List.cons.injEq] at heq
      have hholds : ph.writerHolds = true := by
        cases hp : ph.writerHolds with
        | true => rfl
        | false => simpa using hnil hp
      exact
        { h with
          terminating := hterm.trans h.terminating
          source := hsrc.trans h.source
          writer := by simp [hholds]
          destination := hdst.trans h.destination
          toSource := ⟨heads, heq.2,
            fun c hc => hheads c (List.mem_cons_of_mem _ hc),
            by simp [hholds]⟩ }

/-- Executing `terminate_pipe`: it is the last command to the writer. -/
theorem Handshake.terminatePipe {rest : List ToSource} (h : Handshake ph s)
    (hw : s.writer = .idle) (hq : s.toSource = .terminatePipe :: rest) :
    ph = .requested ∧ rest = [] ∧
      Handshake .acknowledged
        { s with
          pipe := { s.pipe with source := false }
          toSource := rest
          toDestination := s.toDestination ++ [.terminatePipeAck]
          inDemux := false
          sentTerminatePipeAck := s.sentTerminatePipeAck + 1 } := by
  obtain ⟨heads, heq, hheads, _⟩ := h.toSource
  rw [hq] at heq
  cases heads with
  | cons c heads =>
      rw [List.cons_append, List.cons.injEq] at heq
      obtain ⟨position, hc⟩ := hheads c (by simp)
      rw [hc] at heq
      simp at heq
  | nil =>
      have hph : ph = .requested := by
        cases ph <;> simp [Phase.toSource] at heq ⊢
      subst hph
      have hrest : rest = [] := by simpa [Phase.toSource] using heq
      obtain ⟨revives, hdst, hrev, _⟩ := h.toDestination
      refine ⟨rfl, hrest, ?_⟩
      exact
        { h with
          source := rfl
          inDemux := rfl
          writer := fun _ => hw
          reader := by simp [Phase.readerHolds]
          toSource := ⟨[], by simp [hrest, Phase.toSource], by simp, by simp⟩
          toDestination := ⟨revives, by
            simpa [Phase.toDestination] using hdst, hrev,
            by simp [Phase.readerHolds]⟩
          sentTerminatePipeAck := by
            simp [h.sentTerminatePipeAck, Phase.writerHolds] }

theorem Handshake.terminateReader {r : ReaderPc} {down : Bool}
    (h : Handshake ph s) (ht : s.pipe.readerTerminating = false)
    (hsrc : p.source = s.pipe.source)
    (hdst : p.destination = s.pipe.destination)
    (hterm : p.readerTerminating = true) :
    Handshake .requested
      { s with
        pipe := p
        reader := r
        readerDown := down
        toSource := s.toSource ++ [.terminatePipe]
        sentTerminatePipe := s.sentTerminatePipe + 1 } := by
  have hph : ph = .running := by
    have hrun := h.terminating
    rw [ht] at hrun
    simpa using hrun.symm
  subst hph
  obtain ⟨heads, heq, hheads, _⟩ := h.toSource
  exact
    { h with
      terminating := hterm
      source := hsrc.trans h.source
      destination := hdst.trans h.destination
      reader := by simp [Phase.readerHolds]
      toSource := ⟨heads, by simpa [Phase.toSource] using heq, hheads,
        by simp [Phase.writerHolds]⟩
      sentTerminatePipe := by simp [h.sentTerminatePipe] }

theorem Handshake.revive {rest : List ToDestination} (h : Handshake ph s)
    (hq : s.toDestination = .revive :: rest) :
    Handshake ph
      { s with
        pipe := { s.pipe with alive := true }
        toDestination := rest } := by
  obtain ⟨revives, heq, hrev, hnil⟩ := h.toDestination
  rw [hq] at heq
  cases revives with
  | nil => cases ph <;> simp [Phase.toDestination] at heq
  | cons c revives =>
      rw [List.cons_append, List.cons.injEq] at heq
      exact
        { h with
          toDestination := ⟨revives, heq.2,
            fun c hc => hrev c (List.mem_cons_of_mem _ hc),
            fun hp => by simpa using hnil hp⟩ }

/-- Executing `terminate_pipe_ack`: it is the last command to the reader. -/
theorem Handshake.terminatePipeAck {rest : List ToDestination}
    (h : Handshake ph s) (hr : s.reader = .idle)
    (hq : s.toDestination = .terminatePipeAck :: rest) :
    ph = .acknowledged ∧ rest = [] ∧
      Handshake .deleted
        { s with
          pipe := { s.pipe with destination := false }
          toDestination := rest
          inMux := false
          deletions := s.deletions + 1 } := by
  obtain ⟨revives, heq, hrev, _⟩ := h.toDestination
  rw [hq] at heq
  cases revives with
  | cons c revives =>
      rw [List.cons_append, List.cons.injEq] at heq
      rw [hrev c (by simp)] at heq
      simp at heq
  | nil =>
      have hph : ph = .acknowledged := by
        cases ph <;> simp [Phase.toDestination] at heq ⊢
      subst hph
      have hrest : rest = [] := by simpa [Phase.toDestination] using heq
      refine ⟨rfl, hrest, ?_⟩
      exact
        { h with
          destination := rfl
          inMux := rfl
          reader := fun _ => hr
          toDestination := ⟨[], by simp [hrest, Phase.toDestination], by simp,
            by simp⟩
          deletions := by simp [h.deletions, Phase.readerHolds] }

/-- Every step keeps the phase or moves the handshake on. -/
theorem Handshake.step (h : Handshake ph s) (hcontent : ContentInv s)
    (hs : Step s a s') : ∃ ph', Handshake ph' s' := by
  have hdemux : s.inDemux = true → ph.writerHolds = true :=
    fun hd => h.inDemux.symm.trans hd
  have hmux : s.inMux = true → ph.readerHolds = true :=
    fun hm => h.inMux.symm.trans hm
  cases hs with
  | write hw hd hm hp | gapWritten hw hd hc hp =>
      have hf := Pipe.write_frame hp
      exact ⟨ph, h.writerOp (hdemux hd) hf.source hf.destination
        hf.readerTerminating⟩
  | flush hw hd => exact ⟨ph, h.writerOp (hdemux hd) rfl rfl rfl⟩
  | gapDelayed hw hd hc => exact ⟨ph, { h with }⟩
  | terminateWriterAgain hw hd ht => exact ⟨ph, h⟩
  | terminateWriter hw hd ht =>
      refine ⟨ph, ?_⟩
      apply h.writerOp (hdemux hd) <;> rfl
  | headSwapIn hw hq hsw hp =>
      have hf := Pipe.refill_frame _ hp
      exact ⟨ph, h.head hq hf.source hf.destination hf.readerTerminating⟩
  | head hw hq hsw hp =>
      refine ⟨ph, ?_⟩
      rw [(Pipe.writeDelayedGap_cases hp).1]
      apply h.head hq <;> rfl
  | terminatePipe hw hq hsrc hdst =>
      exact ⟨.acknowledged, (h.terminatePipe hw hq).2.2⟩
  | casNothing hw hu | casNull hw hu hc =>
      exact ⟨ph, h.writerOp (h.writerHolds (by simp [hw])) rfl rfl rfl⟩
  | casFound hw hu hc | set hw =>
      refine ⟨ph, ?_⟩
      apply h.writerOp (h.writerHolds (by simp [hw])) <;> rfl
  | sendRevive hw hsrc hdst =>
      have hholds := h.writerHolds (by simp [hw])
      obtain ⟨revives, heq, hrev, _⟩ := h.toDestination
      have hnone : ph.toDestination = [] := by
        cases ph <;> simp [Phase.writerHolds] at hholds <;> rfl
      refine ⟨ph, { h with writer := by simp [hholds], toDestination := ?_ }⟩
      refine ⟨revives ++ [.revive], by simp [heq, hnone], ?_, ?_⟩
      · intro c hc
        rcases List.mem_append.mp hc with hc | hc
        · exact hrev c hc
        · exact List.mem_singleton.mp hc
      · cases ph <;> simp [Phase.writerHolds, Phase.readerHolds] at hholds ⊢
  | resume hw hp =>
      have hholds := h.writerHolds (by simp [hw])
      refine ⟨ph, ?_⟩
      rcases afterFlush_cases hp with
        ⟨_, rfl⟩ | ⟨_, _, rfl⟩ | ⟨_, _, _, rfl⟩ | ⟨_, rfl⟩ <;>
      apply h.writerOp hholds <;> rfl
  | readDead hr hm hd ha => exact ⟨ph, h⟩
  | readPop hr hm hd ha hf
  | readFetch hr hm hd ha hf
  | terminateReaderAgain hr hm ht => exact ⟨ph, h.readerOp (hmux hm) rfl rfl rfl⟩
  | fetchFound hr hf | fetchNone hr hf | die hr =>
      refine ⟨ph, ?_⟩
      apply h.readerOp (h.readerHolds (by simp [hr])) <;> rfl
  | popDelimiterAgain hr hl ht => exact absurd hr (hcontent.notPopping ht)
  | popDelimiter hr hl ht | terminateReader hr hm ht =>
      refine ⟨.requested, ?_⟩
      apply h.terminateReader ht <;> rfl
  | popQuiet hr hl hm hc =>
      obtain ⟨head, rfl⟩ := Pipe.countRead_eq hc
      refine ⟨ph, ?_⟩
      apply h.readerOp (h.readerHolds (by simp [hr])) <;> rfl
  | popReport hr hl hm hc =>
      -- The reader that reports has not sent `terminate_pipe`.
      have hph : ph = .running := by
        have hrun := h.terminating
        cases ht : s.pipe.readerTerminating with
        | true => exact absurd hr (hcontent.notPopping ht)
        | false =>
            rw [ht] at hrun
            simpa using hrun.symm
      subst hph
      obtain ⟨head, rfl⟩ := Pipe.countRead_eq hc
      obtain ⟨heads, heq, hheads, _⟩ := h.toSource
      refine ⟨.running, { h with reader := by simp [Phase.readerHolds], toSource := ?_ }⟩
      refine ⟨heads ++ [.head head], by simp [heq, Phase.toSource], ?_,
        by simp [Phase.writerHolds]⟩
      intro c hmem
      rcases List.mem_append.mp hmem with hmem | hmem
      · exact hheads c hmem
      · exact ⟨head, List.mem_singleton.mp hmem⟩
  | revive hr hq ha => exact ⟨ph, h.revive hq⟩
  | terminatePipeAck hr hq hm =>
      exact ⟨.deleted, (h.terminatePipeAck hr hq).2.2⟩

theorem Handshake.run {src dst : EngineLimits}
    {room : List (RawMsg M) → RawMsg M → Bool} {as : List (PipeAct M)}
    (hswap : src.swapSize + dst.swapSize ≤ 0)
    (h : Run PipeSys.step Orderly
      (PipeSys.start (Pipe.create src dst room)) as s) :
    ContentInv s ∧ ∃ ph, Handshake ph s :=
  invariant_of_step (I := fun s => ContentInv s ∧ ∃ ph, Handshake ph s)
    (fun _ _ _ hI hok hs => by
      obtain ⟨hcontent, ph, hph⟩ := hI
      exact ⟨hcontent.step hok hs, hph.step hcontent hs⟩) h
    ⟨ContentInv.start hswap, .running, Handshake.start _ rfl rfl rfl⟩

end ZeroMQ.PipeSys
