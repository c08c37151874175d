import ZeroMQ.Pipe.Sleep

/-!
# Whole operations of a pipe

`ZeroMQ.Pipe.System` cuts `read` and `flush` at their accesses to the shared
word.  Here the pieces are put together again: `readCall` is an undisturbed
`pipe_t::read`, `purge` is what the destructor does with the messages that are
left in a pipe nobody else uses any more.

## Main results

* `readCall_spec` — a call takes the oldest message, or none.
* `Ypipe.purge_eq` — the destructor sees every message that is left, flushed or
  not, whether or not the reader was asleep.
-/

namespace ZeroMQ

namespace Ypipe

variable {T : Type}

/-- `flush`, without its result. -/
def flush (y : Ypipe T) : Ypipe T :=
  if y.unflushed then
    if y.flushCas.1 then y.flushCas.2 else y.flushSet
  else y

/-- `read` of a pipe with `D = false`.  `none` is a read of the terminator. -/
def read (y : Ypipe T) : Option (Option T × Ypipe T) :=
  if y.prefetched then y.load.map fun v => (some v, y.pop)
  else
    let (found, y') := y.fetch false
    if found then y'.load.map fun v => (some v, y'.pop) else some (none, y')

/-- `while (pipe.read (&message))`, for at most `n` rounds: the messages
read. -/
def drain : Nat → Ypipe T → Option (List T)
  | 0, _ => none
  | n + 1, y =>
      match y.read with
      | none => none
      | some (none, _) => some []
      | some (some v, y') => (drain n y').map fun vs => v :: vs

/-- The destructor of `pipe_t`: the messages it reads. -/
def purge (y : Ypipe T) : Option (List T) :=
  y.flush.drain (y.back - y.front + 1)

/-- Everything written is flushed and nobody writes. -/
structure Flushed (y : Ypipe T) : Prop where
  rd : ∃ ri, y.r = some ri ∧ y.front ≤ ri ∧ ri ≤ y.back
  cEq : y.c = some y.back ∨
    (y.c = none ∧ y.r = some y.front ∧ y.front = y.back)

variable {D : Bool} {asleep : Prop} {wakeups : Nat} {y : Ypipe T}

theorem Flushed.flush (h : Proto false asleep wakeups y) : Flushed y.flush := by
  obtain ⟨ri, hr, h1, h2⟩ := h.rd
  have hback := h.wBack
  have hstop : y.stop = false := by
    cases hs : y.stop with
    | false => rfl
    | true => simpa using (h.stopD hs).1
  unfold Ypipe.flush
  by_cases hu : y.unflushed = true
  · rw [if_pos hu]
    by_cases hc : y.c = some y.w
    · simp only [flushCas_of_eq hc, if_true]
      exact ⟨⟨ri, hr, h1, by simp only [back] at *; omega⟩, .inl rfl⟩
    · simp only [flushCas_of_ne hc, Bool.false_eq_true, if_false]
      exact ⟨⟨ri, hr, h1, by simp only [flushSet, back] at *; omega⟩,
        .inl rfl⟩
  · have hw : y.w = y.back := by simpa [unflushed] using hu
    rw [if_neg hu]
    refine ⟨⟨ri, hr, h1, by omega⟩, ?_⟩
    rcases h.cEq with hc | hc
    · -- `c` is `NULL` only while the reader sleeps, and then it has read all.
      right
      have hasleep : asleep := by
        rcases h.sleep.mpr (.inl hc) with ha | ha
        · exact ha
        · simp [hstop] at ha
      have hfront := h.sleepR hasleep
      have hdrained := h.drained hc
      rw [hfront, Option.some.injEq] at hdrained
      exact ⟨hc, hfront, by omega⟩
    · left
      rw [hc, hw]

@[simp] theorem slots_flush : y.flush.slots = y.slots := by
  unfold flush
  split
  · split
    · unfold flushCas
      split <;> rfl
    · rfl
  · rfl

@[simp] theorem front_flush : y.flush.front = y.front := by
  unfold flush
  split
  · split
    · unfold flushCas
      split <;> rfl
    · rfl
  · rfl

theorem Flushed.pop {ri : Nat} (h : Flushed y) (hr : y.r = some ri)
    (hlt : y.front < ri) : Flushed y.pop := by
  obtain ⟨ri', hr', _, h2⟩ := h.rd
  have heq : ri' = ri := by simpa [hr'] using hr
  refine ⟨⟨ri, hr, hlt, by simp only [back_pop]; omega⟩, ?_⟩
  rcases h.cEq with hc | ⟨_, hf, _⟩
  · exact .inl hc
  · rw [hr, Option.some.injEq] at hf
    omega

/-- A read takes the front message, and fails only when there is none. -/
theorem Flushed.read (h : Flushed y) :
    (y.front = y.back ∧ ∃ y', y.read = some (none, y')) ∨
      ∃ v y', y.read = some (some v, y') ∧ Flushed y' ∧
        y.slots.drop y.front = v :: y'.slots.drop y'.front ∧
        y'.back - y'.front < y.back - y.front := by
  obtain ⟨ri, hr, h1, h2⟩ := h.rd
  by_cases hf : y.front = ri
  · have hpre : y.prefetched = false := by simp [prefetched, hr, hf]
    rcases h.cEq with hc | ⟨hc, _, hend⟩
    · by_cases hend : y.front = y.back
      · left
        refine ⟨hend, { y with r := some y.back, c := none }, ?_⟩
        simp [Ypipe.read, hpre, fetch, hc, hend]
      · right
        have hlt : y.front < y.slots.length := by
          have : y.back = y.slots.length := rfl
          omega
        have hready : Flushed { y with r := some y.back } :=
          ⟨⟨y.back, rfl, by change y.front ≤ y.back; omega, Nat.le_refl _⟩,
            .inl hc⟩
        refine ⟨y.slots[y.front], { y with r := some y.back }.pop, ?_,
          hready.pop rfl (by change y.front < y.back; omega), ?_, ?_⟩
        · simp [Ypipe.read, hpre, fetch, hc, hend, Ne.symm hend, load, hlt]
        · exact List.drop_eq_getElem_cons hlt
        · change y.back - (y.front + 1) < y.back - y.front
          omega
    · left
      refine ⟨hend, { y with r := none }, ?_⟩
      simp [Ypipe.read, hpre, fetch, hc]
  · right
    have hlt : y.front < y.slots.length := by
      have : y.back = y.slots.length := rfl
      omega
    have hpre : y.prefetched = true := by simp [prefetched, hr, hf]
    refine ⟨y.slots[y.front], y.pop, ?_, h.pop hr (by omega), ?_, ?_⟩
    · simp [Ypipe.read, hpre, load, hlt]
    · exact List.drop_eq_getElem_cons hlt
    · change y.back - (y.front + 1) < y.back - y.front
      have : y.back = y.slots.length := rfl
      omega

/-- The loop of the destructor reads what is left and stops. -/
theorem Flushed.drain (h : Flushed y) {n : Nat} (hn : y.back - y.front < n) :
    y.drain n = some (y.slots.drop y.front) := by
  induction n generalizing y with
  | zero => omega
  | succ n ih =>
      rcases h.read with ⟨hend, y', hread⟩ | ⟨v, y', hread, hy', hdrop, hlt⟩
      · have hnil : y.slots.drop y.front = [] :=
          List.drop_eq_nil_of_le (by rw [hend]; exact Nat.le_refl _)
        simp [Ypipe.drain, hread, hnil]
      · simp [Ypipe.drain, hread, ih hy' (by omega), hdrop]

theorem purge_eq (h : Proto false asleep wakeups y) :
    y.purge = some (y.slots.drop y.front) := by
  have hy := Flushed.flush h
  have hdrain := hy.drain (n := y.back - y.front + 1)
    (by simp only [back, slots_flush, front_flush]; omega)
  simpa [purge] using hdrain

end Ypipe

namespace PipeSys

variable {M : Type}

/-- The end of `read`: the message at the front is taken. -/
def takeFront (s : PipeSys M) : Option (Bool × RawMsg M × PipeSys M) :=
  s.pipe.pipe.load.bind fun msg =>
    (s.step .pop).map fun s' => (!msg.isDelimiter, msg, s')

/-- `read (msg)`: its result, what it leaves in the message structure, and the
pipe. -/
def readCall (s : PipeSys M) (msg : RawMsg M) :
    Option (Bool × RawMsg M × PipeSys M) :=
  (s.step .read).bind fun s₁ =>
    match s₁.reader with
    | .pop => s₁.takeFront
    | .fetch =>
        (s₁.step .fetch).bind fun s₂ =>
          match s₂.reader with
          | .pop => s₂.takeFront
          | _ => (s₂.step .die).map fun s₃ => (false, msg, s₃)
    | _ => some (false, msg, s₁)

/-- The members no `read` changes. -/
structure ReadFrame (s s' : PipeSys M) : Prop where
  slots : s'.pipe.pipe.slots = s.pipe.pipe.slots
  dataDam : s'.pipe.dataDam = s.pipe.dataDam
  swapping : s'.pipe.swapping = s.pipe.swapping
  inDemux : s'.inDemux = s.inDemux
  inMux : s'.inMux = s.inMux
  toDestination : s'.toDestination = s.toDestination

variable {s s' : PipeSys M} {msg msg' : RawMsg M} {b : Bool}

theorem Step.pop_spec (h : Step s .pop s') :
    ReadFrame s s' ∧ s'.pipe.pipe.front = s.pipe.pipe.front + 1 := by
  cases h with
  | popDelimiterAgain hr hl ht
  | popDelimiter hr hl ht => exact ⟨⟨rfl, rfl, rfl, rfl, rfl, rfl⟩, rfl⟩
  | popQuiet hr hl hm hc | popReport hr hl hm hc =>
      obtain ⟨head, rfl⟩ := Pipe.countRead_eq hc
      exact ⟨⟨rfl, rfl, rfl, rfl, rfl, rfl⟩, rfl⟩

theorem takeFront_spec (h : s.takeFront = some (b, msg', s'))
    (hinv : SleepInv s) :
    SleepInv s' ∧ ReadFrame s s' ∧ (b = true ↔ msg' ≠ .delimiter) ∧
      s.pipe.coreMsgs = msg' :: s'.pipe.coreMsgs := by
  obtain ⟨m, hload, h⟩ := Option.bind_eq_some_iff.mp h
  obtain ⟨t, hstep, h⟩ := Option.map_eq_some_iff.mp h
  cases h
  have hst := Step.of_step hstep
  obtain ⟨hframe, hfront⟩ := hst.pop_spec
  refine ⟨hinv.step hst, hframe, ?_, ?_⟩
  · have hdel := msg'.isDelimiter_iff
    cases hm : msg'.isDelimiter <;> simp_all
  · obtain ⟨hlt, hget⟩ := List.getElem?_eq_some_iff.mp hload
    unfold Pipe.coreMsgs
    rw [hframe.slots, hfront, ← hget]
    exact List.drop_eq_getElem_cons hlt

/-- A call of `read` returns the oldest message; it fails on a pipe that is
dead or empty, and when that message is a delimiter. -/
theorem readCall_spec (h : s.readCall msg = some (b, msg', s'))
    (hinv : SleepInv s) :
    SleepInv s' ∧ ReadFrame s s' ∧
      ((b = false ∧ msg' = msg ∧ s'.pipe.coreMsgs = s.pipe.coreMsgs) ∨
        ((b = true ↔ msg' ≠ .delimiter) ∧
          s.pipe.coreMsgs = msg' :: s'.pipe.coreMsgs)) := by
  obtain ⟨s₁, hread, h⟩ := Option.bind_eq_some_iff.mp h
  have hst := Step.of_step hread
  have hinv₁ := hinv.step hst
  cases hst with
  | readDead hr hm hd ha =>
      simp only [hr] at h
      cases h
      exact ⟨hinv, ⟨rfl, rfl, rfl, rfl, rfl, rfl⟩, .inl ⟨rfl, rfl, rfl⟩⟩
  | readPop hr hm hd ha hf =>
      obtain ⟨h1, h2, h3, h4⟩ := takeFront_spec h hinv₁
      exact ⟨h1, { h2 with }, .inr ⟨h3, h4⟩⟩
  | readFetch hr hm hd ha hf =>
      obtain ⟨s₂, hfetch, h⟩ := Option.bind_eq_some_iff.mp h
      have hst₂ := Step.of_step hfetch
      have hinv₂ := hinv₁.step hst₂
      cases hst₂ with
      | fetchFound hr' hf' =>
          obtain ⟨h1, h2, h3, h4⟩ := takeFront_spec h hinv₂
          refine ⟨h1, ?_, .inr ⟨h3, ?_⟩⟩
          · exact ⟨by simpa using h2.slots, h2.dataDam, h2.swapping,
              h2.inDemux, h2.inMux, h2.toDestination⟩
          · simpa [Pipe.coreMsgs] using h4
      | fetchNone hr' hf' =>
          obtain ⟨s₃, hdie, h⟩ := Option.map_eq_some_iff.mp h
          cases h
          have hst₃ := Step.of_step hdie
          have hinv₃ := hinv₂.step hst₃
          cases hst₃ with
          | die hr'' =>
              refine ⟨hinv₃, ⟨by simp, rfl, rfl, rfl, rfl, rfl⟩, .inl ?_⟩
              exact ⟨rfl, rfl, by simp [Pipe.coreMsgs]⟩

end PipeSys

end ZeroMQ
