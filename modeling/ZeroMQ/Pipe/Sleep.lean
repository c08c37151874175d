import ZeroMQ.Pipe.System

/-!
# Going to sleep and being revived

The reader of a pipe stops looking at it once `read` has found it empty: it
clears `alive` and waits for a `revive` command.  `alive`, the `NULL` in `c` and
the command on its way are three views of one fact, changed at different times
by different threads.  They are tied together by the protocol invariant of the
`ypipe_t` below: the reader sleeps when `alive` is false or it is about to
clear it, and a wake-up is owed while a `revive` is in flight or the writer is
about to send it.

## Main results

* `SleepInv.step` — every operation of either thread keeps the invariant.
* `revive_protocol` — at most one `revive` is in flight, it finds the pipe
  dead, and no flushed message is left to a reader that nobody wakes.
-/

namespace ZeroMQ.PipeSys

open ZeroMQ.Lib

variable {M : Type}

/-- The reader has found the pipe empty. -/
def Asleep (s : PipeSys M) : Prop :=
  s.pipe.alive = false ∨ s.reader = .die

/-- The writer is inside `flush`, about to send `revive`. -/
def reviving : WriterPc → Nat
  | .revive _ => 1
  | _ => 0

/-- The wake-ups owed to the reader. -/
def wakeups (s : PipeSys M) : Nat :=
  s.toDestination.count .revive + reviving s.writer

/-- The sleep protocol of the pipe. -/
structure SleepInv (s : PipeSys M) : Prop where
  proto : Ypipe.Proto false s.Asleep s.wakeups s.pipe.pipe
  setting : ∀ k, s.writer = .set k → s.pipe.pipe.c = none
  fetching : s.reader = .fetch → s.pipe.alive = true
  popping : s.reader = .pop →
    s.pipe.alive = true ∧ s.pipe.pipe.r ≠ some s.pipe.pipe.front

theorem SleepInv.start (src dst : EngineLimits)
    (room : List (RawMsg M) → RawMsg M → Bool) :
    SleepInv (start (Pipe.create src dst room)) where
  proto := by
    apply (Ypipe.Proto.create false).congr
    simp [Asleep, PipeSys.start, Pipe.create]
  setting := by simp [PipeSys.start]
  fetching := by simp [PipeSys.start]
  popping := by simp [PipeSys.start]

variable {s s' : PipeSys M} {a : PipeAct M}

/-- The pipe of a message pipe has `D = false`: it never promises to sleep. -/
theorem SleepInv.stop (h : SleepInv s) : s.pipe.pipe.stop = false := by
  cases hs : s.pipe.pipe.stop with
  | false => rfl
  | true => simpa using (h.proto.stopD hs).1

theorem SleepInv.c_of_awake (h : SleepInv s) (ha : ¬ s.Asleep) :
    s.pipe.pipe.c = some s.pipe.pipe.w :=
  (h.proto.c_of_awake ha h.stop).1

/-- While the reader is awake the writer does not store to `c`. -/
theorem SleepInv.not_set {k : AfterFlush} (h : SleepInv s) (ha : ¬ s.Asleep)
    (hk : s.writer = .set k) : False := by
  have hc := h.setting k hk
  rw [h.c_of_awake ha] at hc
  cases hc

theorem SleepInv.not_asleep_of_fetch (h : SleepInv s)
    (hr : s.reader = .fetch) : ¬ s.Asleep := by
  simp [Asleep, h.fetching hr, hr]

theorem SleepInv.not_asleep_of_pop (h : SleepInv s)
    (hr : s.reader = .pop) : ¬ s.Asleep := by
  simp [Asleep, (h.popping hr).1, hr]

/-- An operation of the writer that only stores messages and moves on, without
owing or paying a wake-up. -/
theorem SleepInv.of_extends {p : Pipe M} {w : WriterPc} (h : SleepInv s)
    (hp : Pipe.Extends s.pipe p) (ha : p.alive = s.pipe.alive)
    (hr : reviving w = reviving s.writer)
    (hset : ∀ k, w ≠ .set k) {toSource : List ToSource}
    {accepted : List (RawMsg M)} :
    SleepInv
      { s with
        pipe := p
        writer := w
        toSource := toSource
        accepted := accepted } := by
  obtain ⟨msgs, hm⟩ := hp
  exact
    { proto := by
        have hproto := h.proto.append msgs
        rw [← hm] at hproto
        simpa [Asleep, wakeups, ha, hr] using hproto
      setting := fun k hk => absurd hk (hset k)
      fetching := fun hf => by simpa [ha] using h.fetching hf
      popping := fun hf => by simpa [ha, hm] using h.popping hf }

/-- `flush` finds its reader awake and publishes what was written. -/
theorem SleepInv.casFound {k : AfterFlush} (h : SleepInv s)
    (hw : s.writer = .flush k)
    (hc : s.pipe.pipe.c = some s.pipe.pipe.w) :
    SleepInv
      { s with
        pipe :=
          { s.pipe with
            pipe :=
              { s.pipe.pipe with
                c := some s.pipe.pipe.back
                w := s.pipe.pipe.back } }
        writer := .resume k } where
  proto := by
    have hproto := h.proto.flushCas hc
    simpa [Asleep, wakeups, reviving, hw] using hproto
  setting := by simp
  fetching := h.fetching
  popping := h.popping

/-- `flush` finds its reader asleep and from now on owes it a `revive`. -/
theorem SleepInv.set {k : AfterFlush} (h : SleepInv s)
    (hw : s.writer = .set k) :
    SleepInv
      { s with
        pipe := { s.pipe with pipe := s.pipe.pipe.flushSet }
        writer := .revive k } where
  proto := by
    have hc := h.setting k hw
    have hzero : s.wakeups = 0 := (h.proto.of_c_none hc).2
    have hcount : s.toDestination.count .revive = 0 := by
      simpa [wakeups, reviving, hw] using hzero
    have hproto := h.proto.flushSet hc
    simpa [Asleep, wakeups, reviving, hcount] using hproto
  setting := by simp
  fetching := h.fetching
  popping := h.popping

theorem SleepInv.fetchFound (h : SleepInv s) (hr : s.reader = .fetch)
    (hf : (s.pipe.pipe.fetch false).1 = true) :
    SleepInv
      { s with
        pipe := { s.pipe with pipe := (s.pipe.pipe.fetch false).2 }
        reader := .pop } := by
  have hawake := h.not_asleep_of_fetch hr
  have ha := h.fetching hr
  obtain ⟨hproto, hread, hlt⟩ := h.proto.fetch_true hawake h.stop hf
  exact
    { proto := by
        apply hproto.congr
        simp [Asleep, ha, hr]
      setting := fun _ hk => (h.not_set hawake hk).elim
      fetching := by simp
      popping := fun _ => by
        refine ⟨ha, ?_⟩
        simp only [hread, Ypipe.front_fetch, ne_eq, Option.some.injEq]
        omega }

/-- A prefetch that finds nothing puts the reader to sleep. -/
theorem SleepInv.fetchNone (h : SleepInv s) (hr : s.reader = .fetch)
    (hf : (s.pipe.pipe.fetch false).1 = false) :
    SleepInv
      { s with
        pipe := { s.pipe with pipe := (s.pipe.pipe.fetch false).2 }
        reader := .die } := by
  have hawake := h.not_asleep_of_fetch hr
  have hproto := h.proto.fetch_false hawake h.stop hf
  exact
    { proto := by
        apply hproto.congr
        simp [Asleep]
      setting := fun _ hk => (h.not_set hawake hk).elim
      fetching := by simp
      popping := by simp }

/-- Taking a message, whatever it is and whatever `read` then reports. -/
theorem SleepInv.pop {p : Pipe M} (h : SleepInv s) (hr : s.reader = .pop)
    (hp : p.pipe = s.pipe.pipe.pop) (ha : p.alive = s.pipe.alive)
    {toSource : List ToSource} {returned : List (RawMsg M)} {sent : Nat} :
    SleepInv
      { s with
        pipe := p
        reader := .idle
        toSource := toSource
        returned := returned
        sentTerminatePipe := sent } := by
  obtain ⟨halive, hne⟩ := h.popping hr
  have hproto := h.proto.pop (h.not_asleep_of_pop hr) hne
  rw [← hp] at hproto
  exact
    { proto := by
        apply hproto.congr
        simp [Asleep, ha, halive, hr]
      setting := fun _ hk => (h.not_set (h.not_asleep_of_pop hr) hk).elim
      fetching := by simp
      popping := by simp }

theorem SleepInv.revive {rest : List ToDestination} (h : SleepInv s)
    (hr : s.reader = .idle) (hq : s.toDestination = .revive :: rest)
    (ha : s.pipe.alive = false) :
    SleepInv
      { s with
        pipe := { s.pipe with alive := true }
        toDestination := rest } := by
  have hle := h.proto.wakeLe
  have hone : s.wakeups = 1 := by
    simp only [wakeups, hq, List.count_cons_self] at hle ⊢
    omega
  have hzero : rest.count .revive + reviving s.writer = 0 := by
    simp only [wakeups, hq, List.count_cons_self] at hone
    omega
  have hproto := h.proto
  rw [hone] at hproto
  have hawake := hproto.wake (.inl ha)
  exact
    { proto := by
        simp only [wakeups, hzero]
        apply hawake.congr
        simp [Asleep, hr]
      setting := h.setting
      fetching := by simp
      popping := by simp [hr] }

/-- Every step of either thread keeps the sleep protocol. -/
theorem SleepInv.step (h : SleepInv s) (hs : Step s a s') : SleepInv s' := by
  cases hs with
  | write hw hd hm hp =>
      exact h.of_extends (Pipe.write_extends hp) (Pipe.write_frame hp).alive
        rfl (by simp [hw])
  | flush hw hd | casNothing hw hu =>
      exact h.of_extends (.of_eq rfl) rfl (by simp [reviving, hw]) (by simp)
  | gapWritten hw hd hc hp =>
      exact h.of_extends (Pipe.write_extends hp) (Pipe.write_frame hp).alive
        (by simp [reviving, hw]) (by simp)
  | gapDelayed hw hd hc =>
      apply h.of_extends
      · exact .of_eq rfl
      · rfl
      · rfl
      · simp [hw]
  | terminateWriterAgain hw hd ht => exact h
  | terminateWriter hw hd ht =>
      apply h.of_extends
      · exact ⟨[.delimiter], rfl⟩
      · rfl
      · simp [reviving, hw]
      · simp
  | headSwapIn hw hq hsw hp =>
      have hext := Pipe.refill_extends _ hp
      apply h.of_extends
      · exact hext
      · exact (Pipe.refill_frame _ hp).alive
      · simp [reviving, hw]
      · simp
  | head hw hq hsw hp =>
      rw [(Pipe.writeDelayedGap_cases hp).1]
      apply h.of_extends
      · exact .of_eq rfl
      · rfl
      · rfl
      · simp [hw]
  | terminatePipe hw hq hsrc hdst =>
      exact
        { h with
          proto := by
            have hproto := h.proto
            simpa [Asleep, wakeups, List.count_append] using hproto }
  | casFound hw hu hc => exact h.casFound hw hc
  | casNull hw hu hc =>
      exact
        { h with
          proto := by simpa [Asleep, wakeups, reviving, hw] using h.proto
          setting := fun _ _ => h.proto.cEq.resolve_right hc }
  | set hw => exact h.set hw
  | sendRevive hw hsrc hdst =>
      exact
        { h with
          proto := by
            have hproto := h.proto
            simpa [Asleep, wakeups, reviving, hw, List.count_append]
              using hproto
          setting := by simp }
  | resume hw hp =>
      obtain ⟨hpipe, ha⟩ := afterFlush_frame hp
      exact h.of_extends (.of_eq hpipe) ha (by simp [reviving, hw]) (by simp)
  | readDead hr hm hd ha => exact h
  | readPop hr hm hd ha hf =>
      exact
        { h with
          proto := by
            apply h.proto.congr
            simp [Asleep, hr]
          fetching := by simp
          popping := fun _ => by
            refine ⟨ha, ?_⟩
            have hne : some s.pipe.pipe.front ≠ s.pipe.pipe.r := by
              simpa [Ypipe.prefetched] using hf
            exact fun he => hne he.symm }
  | readFetch hr hm hd ha hf =>
      exact
        { h with
          proto := by
            apply h.proto.congr
            simp [Asleep, hr]
          fetching := fun _ => ha
          popping := by simp }
  | fetchFound hr hf => exact h.fetchFound hr hf
  | fetchNone hr hf => exact h.fetchNone hr hf
  | die hr =>
      exact
        { h with
          proto := by
            apply h.proto.congr
            simp [Asleep, hr]
          fetching := by simp
          popping := by simp }
  | popDelimiterAgain hr hl ht => apply h.pop hr <;> rfl
  | popDelimiter hr hl ht => apply h.pop hr <;> rfl
  | popQuiet hr hl hm hc | popReport hr hl hm hc =>
      obtain ⟨head, rfl⟩ := Pipe.countRead_eq hc
      apply h.pop hr <;> rfl
  | revive hr hq ha => exact h.revive hr hq ha
  | terminateReaderAgain hr hm ht => exact { h with }
  | terminateReader hr hm ht => exact { h with }
  | terminatePipeAck hr hq hm =>
      exact
        { h with
          proto := by
            have hproto := h.proto
            simpa [Asleep, wakeups, hq] using hproto }

theorem SleepInv.run {src dst : EngineLimits}
    {room : List (RawMsg M) → RawMsg M → Bool}
    {ok : PipeSys M → PipeAct M → Prop} {as : List (PipeAct M)}
    (h : Run PipeSys.step ok (PipeSys.start (Pipe.create src dst room)) as s) :
    SleepInv s :=
  invariant_of_step (fun _ _ _ hI _ hs => SleepInv.step hI hs) h
    (SleepInv.start src dst room)

/-- A message below `w` is seen by an awake reader, or a wake-up is owed. -/
theorem SleepInv.unread (h : SleepInv s)
    (hlt : s.pipe.pipe.front < s.pipe.pipe.w) :
    s.pipe.alive = true ∨ .revive ∈ s.toDestination ∨
      ∃ k, s.writer = .revive k := by
  cases ha : s.pipe.alive with
  | true => exact .inl rfl
  | false =>
      right
      have hne : s.wakeups ≠ 0 := by
        intro hzero
        have hproto := h.proto
        rw [hzero] at hproto
        have heq := hproto.all_read_of_asleep (.inl ha)
        omega
      by_cases hmem : ToDestination.revive ∈ s.toDestination
      · exact .inl hmem
      · have hcount := List.count_eq_zero.mpr hmem
        cases hw : s.writer with
        | revive k => exact .inr ⟨k, rfl⟩
        | _ => simp [wakeups, hcount, reviving, hw] at hne

/-- The sleep and revive protocol, for every interleaving of the two threads:
at most one `revive` is in flight; when it can be delivered `alive` is false,
so the assertion in `pipe_t::revive` holds; and a flushed message that is
unread has a reader that is alive, or will be revived. -/
theorem revive_protocol {src dst : EngineLimits}
    {room : List (RawMsg M) → RawMsg M → Bool} {as : List (PipeAct M)}
    (h : Run step Any (PipeSys.start (Pipe.create src dst room)) as s) :
    s.toDestination.count .revive ≤ 1 ∧
    (∀ rest, s.reader = .idle → s.toDestination = .revive :: rest →
      s.pipe.alive = false) ∧
    (s.pipe.pipe.front < s.pipe.pipe.w →
      s.pipe.alive = true ∨ .revive ∈ s.toDestination ∨
        ∃ k, s.writer = .revive k) := by
  have hinv := SleepInv.run h
  have hle := hinv.proto.wakeLe
  refine ⟨?_, ?_, hinv.unread⟩
  · unfold wakeups at hle
    omega
  · intro rest hr hq
    have hone : s.wakeups = 1 := by
      simp only [wakeups, hq, List.count_cons_self] at hle ⊢
      omega
    -- A wake-up is owed only to a reader that sleeps, and an idle reader
    -- sleeps only with `alive` cleared.
    rcases hinv.proto.sleep.mpr (.inr hone) with hasleep | hstop
    · rcases hasleep with ha | hdie
      · exact ha
      · simp [hr] at hdie
    · simp [hinv.stop] at hstop

/-- The reader of an unlimited pipe falls asleep before anything is written;
the first flush then sends it a `revive`. -/
theorem revive_protocol_first_message :
    ∃ s : PipeSys Nat,
      Run step Any
        (PipeSys.start (Pipe.create ⟨-1, 0, 0⟩ ⟨-1, 0, 0⟩ fun _ _ => true))
        [.read, .fetch, .die, .write (.data 7), .flush, .cas, .set,
          .sendRevive] s ∧
      s.pipe.alive = false ∧ s.pipe.pipe.front < s.pipe.pipe.w ∧
      (s.pipe.alive = true ∨ .revive ∈ s.toDestination ∨
        ∃ k, s.writer = .revive k) :=
  Run.exists_of_exec (by decide +kernel) fun _ hrun hs =>
    ⟨And.left hs, And.right hs, (revive_protocol hrun).2.2 (And.right hs)⟩

end ZeroMQ.PipeSys
