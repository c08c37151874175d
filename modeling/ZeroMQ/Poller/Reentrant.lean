import ZeroMQ.Poller.Monitors

/-!
# Re-entrant rounds of `poll_t`

`poll_t` (`libzmq/poll_thread.cpp`) finds the entry of a descriptor by an index
that it keeps in a table.  The entries move when the pollset is cleaned up, and
the engines and timers that are called in a round may change everything, or
even begin a round of their own.

A thread is therefore a stack of activations of `process_events`, each with its
own `i`.  An inner round may clean up the pollset while an outer one is at work,
so that the latter reads `pollset [i]` where there is no entry any more; it then
gets anything.  A descriptor is an index of the table and must be smaller than
its size; it is the operating system that sees to that.

The table and the pollset agree at any time.  The loop reads the table at the
descriptor of an entry before it looks whether the entry is retired, that is, at
the index -1 if it is.

## Main definitions

* `Poll.cleanUp` — the clean-up at the end of a round, entry by entry.
* `PollStack.step` — the activations of `process_events` and the calls of those
  that they call.
* `Asked` — the events that the calls since `add_fd` ask for.
* `PollStack.Consistent` — the table and the pollset agree.

## Main results

* `Poll.cleanUp_eq` — the clean-up keeps the entries in use.
* `PollStack.exists_run_ofRound` — the rounds of `RoundSys` are among those here.
* `poll_consistent` — the table and the pollset agree whatever is called.
* `table_accesses_iff` — when the table is read within its bounds.
* `within_of_removesPassed` — it is if entries are removed behind the loop only.
-/

namespace ZeroMQ

open ZeroMQ.Lib

variable {c : MonitorCall}

/-! ## The clean-up -/

namespace Poll

/-- The loop of the clean-up, from the entry `i` on, with the indices at which
the table is accessed.  Every turn leaves fewer entries behind `i`; `n` is not
less than their number. -/
def cleanLoop : Nat → Poll → Nat → List Int → Poll × List Int
  | 0, s, _, accesses => (s, accesses)
  | n + 1, s, i, accesses =>
      match s.pollset[i]? with
      | none => (s, accesses)
      | some p =>
          match p.fd with
          | none =>
              cleanLoop n { s with pollset := s.pollset.eraseIdx i } i accesses
          | some fd =>
              cleanLoop n
                { s with
                  fdTable := Function.update s.fdTable fd
                    { s.fdTable fd with index := some i } }
                (i + 1) (accesses ++ [(fd : Int)])

/-- Clean up the pollset and update the table accordingly. -/
def cleanUp (s : Poll) : Poll × List Int :=
  if s.retired then
    let r := cleanLoop s.pollset.length s 0 []
    ({ r.1 with retired := false }, r.2)
  else (s, [])

/-- The entries before `i` have been kept, those from there on are still to be
looked at. -/
theorem cleanLoop_append {n : Nat} {s : Poll} {kept rest : List PollFd}
    {accesses : List Int} (hset : s.pollset = kept ++ rest)
    (hn : rest.length ≤ n) :
    cleanLoop n s kept.length accesses =
      ({ s with
          pollset := kept ++ rest.filter fun p => p.fd ≠ none
          fdTable := reindex s.fdTable kept.length
            (rest.filter fun p => p.fd ≠ none) },
        accesses ++ (rest.filterMap PollFd.fd).map Int.ofNat) := by
  induction n generalizing s kept rest accesses with
  | zero =>
      obtain rfl := List.eq_nil_of_length_eq_zero (Nat.le_zero.mp hn)
      simp [cleanLoop, reindex, ← hset]
  | succ n ih =>
      cases rest with
      | nil =>
          have hnone : s.pollset[kept.length]? = none := by
            rw [hset]
            simp
          simp [cleanLoop, hnone, reindex, ← hset]
      | cons p rest =>
          have hsome : s.pollset[kept.length]? = some p := by
            rw [hset]
            simp
          rw [List.length_cons] at hn
          cases hfd : p.fd with
          | none =>
              have herase : s.pollset.eraseIdx kept.length = kept ++ rest := by
                rw [hset, List.eraseIdx_append_of_length_le (Nat.le_refl _),
                  Nat.sub_self]
                rfl
              simp only [cleanLoop, hsome, hfd]
              refine (ih herase (by omega)).trans ?_
              simp [hfd]
          | some fd =>
              let next : Poll :=
                { s with
                  fdTable := Function.update s.fdTable fd
                    { s.fdTable fd with index := some kept.length } }
              have hnext : next.pollset = (kept ++ [p]) ++ rest := by
                rw [show next.pollset = s.pollset from rfl, hset,
                  List.append_assoc]
                rfl
              have hlength : kept.length + 1 = (kept ++ [p]).length := by simp
              simp only [cleanLoop, hsome, hfd]
              rw [hlength]
              refine (ih hnext (by omega)).trans ?_
              simp [hfd, reindex, next]

/-- The clean-up drops the retired entries, keeps the others in their order, and
tells the table where they are.  The table is accessed at their descriptors. -/
theorem cleanUp_eq (s : Poll) :
    s.cleanUp = (s.finish,
      if s.retired then (s.pollset.filterMap PollFd.fd).map Int.ofNat
      else []) := by
  unfold cleanUp finish
  split
  · rw [show (0 : Nat) = ([] : List PollFd).length from rfl,
      cleanLoop_append rfl (Nat.le_refl _)]
    rfl
  · rfl

end Poll

/-! ## The events asked for -/

namespace MonitorCall

/-- The descriptor a call is about. -/
def fd : MonitorCall → Nat
  | .addFd fd _ => fd
  | .rmFd fd => fd
  | .setPollin fd => fd
  | .resetPollin fd => fd
  | .setPollout fd => fd
  | .resetPollout fd => fd

/-- What a call makes of the events asked for. -/
def mask : MonitorCall → PollMask → PollMask
  | .addFd _ _, _ => ⟨false, false⟩
  | .rmFd _, m => m
  | .setPollin _, m => { m with pollin := true }
  | .resetPollin _, m => { m with pollin := false }
  | .setPollout _, m => { m with pollout := true }
  | .resetPollout _, m => { m with pollout := false }

end MonitorCall

/-- What an entry of the history makes of the events asked for a descriptor. -/
def maskAfter (fd : Nat) (m : PollMask) : MonitorEntry → PollMask
  | .call c => if c.fd = fd then c.mask m else m
  | .reported _ => m
  | .callback _ _ _ => m

/-- At the end of `log` the descriptor is registered, and `m` is what the calls
since `add_fd` have made of the events asked for. -/
def Asked (log : List MonitorEntry) (fd : Nat) (m : PollMask) : Prop :=
  ∃ before engine since, log = before ++ .call (.addFd fd engine) :: since ∧
    .call (.rmFd fd) ∉ since ∧ (∀ engine', .call (.addFd fd engine') ∉ since) ∧
    m = since.foldl (maskAfter fd) ⟨false, false⟩

theorem Asked.concat {log : List MonitorEntry} {fd : Nat} {m : PollMask}
    (h : Asked log fd m) {entry : MonitorEntry}
    (hrm : .call (.rmFd fd) ≠ entry)
    (hadd : ∀ engine, .call (.addFd fd engine) ≠ entry) :
    Asked (log ++ [entry]) fd (maskAfter fd m entry) := by
  obtain ⟨before, engine, since, rfl, hnorm, hnoadd, rfl⟩ := h
  refine ⟨before, engine, since ++ [entry], by simp, ?_, fun engine' => ?_, by simp⟩
  · simp [hnorm, hrm]
  · simp [hnoadd engine', hadd engine']

namespace Poll

variable {s s' : Poll} {l : Ledger} {p : PollFd} {fd : Nat}

theorem entry_of_setEvents (h : Rel s l) {x : Nat} {f : PollMask → PollMask}
    (hs : s.setEvents x f = some s') (hp : p ∈ s'.pollset)
    (hfd : p.fd = some fd) :
    ∃ q ∈ s.pollset, q.fd = some fd ∧
      p.events = if x = fd then f q.events else q.events := by
  obtain ⟨i, hi, rfl⟩ := Option.map_eq_some_iff.mp hs
  obtain ⟨j, hj⟩ := List.getElem?_of_mem hp
  rw [List.getElem?_modify] at hj
  obtain ⟨q, hq, rfl⟩ := Option.map_eq_some_iff.mp hj
  refine ⟨q, List.mem_of_getElem? hq, ?_⟩
  by_cases hij : i = j
  · rw [if_pos hij] at hfd ⊢
    obtain ⟨q', hq', hx⟩ := (h.index x i).mp hi
    rw [hij, hq] at hq'
    cases hq'
    have hsame : x = fd := Option.some.inj (hx.symm.trans hfd)
    exact ⟨hfd, (if_pos hsame).symm⟩
  · rw [if_neg hij] at hfd ⊢
    have hne : x ≠ fd := by
      rintro rfl
      rw [h.index_of_getElem? hq hfd] at hi
      exact hij (Option.some.inj hi).symm
    exact ⟨hfd, (if_neg hne).symm⟩

/-- Where an entry in use comes from: it has been added, or it was there and
the call has been noted in it. -/
theorem entry_of_call (h : Rel s l) (hs : s.call c = some s')
    (hp : p ∈ s'.pollset) (hfd : p.fd = some fd) :
    (∃ engine, c = .addFd fd engine ∧ p.events = ⟨false, false⟩) ∨
      .rmFd fd ≠ c ∧ (∀ engine, .addFd fd engine ≠ c) ∧
        ∃ q ∈ s.pollset, q.fd = some fd ∧
          p.events = maskAfter fd q.events (.call c) := by
  cases c with
  | addFd x engine =>
      obtain ⟨hnone, hs⟩ := Option.ite_none_right_eq_some.mp hs
      cases hs
      rcases List.mem_append.mp hp with hold | hnew
      · have hne : x ≠ fd := by
          rintro rfl
          exact h.index_ne_none hold hfd hnone
        refine .inr ⟨nofun, ?_, p, hold, hfd, (if_neg hne).symm⟩
        rintro engine' ⟨⟩
        exact hne rfl
      · cases List.mem_singleton.mp hnew
        cases hfd
        exact .inl ⟨engine, rfl, rfl⟩
  | rmFd x =>
      obtain ⟨i, hi, rfl⟩ := Option.map_eq_some_iff.mp hs
      obtain ⟨j, hj⟩ := List.getElem?_of_mem hp
      obtain ⟨hne, hold⟩ := h.of_getElem?_retire hi hj hfd
      refine .inr ⟨?_, nofun, p, List.mem_of_getElem? hold, hfd,
        (if_neg hne.symm).symm⟩
      rintro ⟨⟩
      exact hne rfl
  | setPollin x | resetPollin x | setPollout x | resetPollout x =>
      exact .inr ⟨nofun, nofun, entry_of_setEvents h hs hp hfd⟩

/-- An entry is retired by the `rm_fd` of its descriptor only, which notes it. -/
theorem retired_of_call {k : Nat} (hs : s.call c = some s')
    (hp : s'.pollset[k]? = some p) (hfd : p.fd = none) :
    (∃ q, s.pollset[k]? = some q ∧ q.fd = none) ∧
        (s.retired = true → s'.retired = true) ∨
      (∃ fd, c = .rmFd fd ∧ (s.fdTable fd).index = some k) ∧
        s'.retired = true := by
  cases c with
  | addFd x engine =>
      obtain ⟨_, hs⟩ := Option.ite_none_right_eq_some.mp hs
      cases hs
      rw [List.getElem?_append] at hp
      split at hp
      · exact .inl ⟨⟨p, hp, hfd⟩, id⟩
      · obtain rfl := List.mem_singleton.mp (List.mem_of_getElem? hp)
        cases hfd
  | rmFd x =>
      obtain ⟨i, hi, rfl⟩ := Option.map_eq_some_iff.mp hs
      rw [List.getElem?_modify] at hp
      obtain ⟨q, hq, rfl⟩ := Option.map_eq_some_iff.mp hp
      by_cases hik : i = k
      · exact .inr ⟨⟨x, rfl, hik ▸ hi⟩, rfl⟩
      · rw [if_neg hik] at hfd
        exact .inl ⟨⟨q, hq, hfd⟩, fun _ => rfl⟩
  | setPollin x | resetPollin x | setPollout x | resetPollout x =>
      obtain ⟨i, hi, rfl⟩ := Option.map_eq_some_iff.mp hs
      rw [List.getElem?_modify] at hp
      obtain ⟨q, hq, rfl⟩ := Option.map_eq_some_iff.mp hp
      refine .inl ⟨⟨q, hq, ?_⟩, id⟩
      split at hfd
      · exact hfd
      · exact hfd

end Poll

/-! ## Activations of `process_events` -/

/-- An activation of `process_events`: it has called `timer_event`, it is at the
begin of a turn of the loop, inside one with the events still to be looked at,
or it has called an engine there. -/
inductive PollFrame where
  | timer
  | turn (i : Nat)
  | testing (i : Nat) (vars : LoopVars) (todo : List Event)
  | handling (i : Nat) (vars : LoopVars) (todo : List Event)
  deriving DecidableEq, Repr

/-- The loop has looked at the entries before this one. -/
def PollFrame.next : PollFrame → Nat
  | .timer => 0
  | .turn i => i
  | .testing i _ _ => i + 1
  | .handling i _ _ => i + 1

/-- A thread with the activations of `process_events`, the innermost first, the
history, and the indices at which `process_events` has accessed the table. -/
structure PollStack where
  poll : Poll
  frames : List PollFrame
  log : List MonitorEntry
  accesses : List Int

/-- A call to the poller; a call of `process_events`, with the answer of the
operating system; a step of its loop; and the return of the engine or of the
timers, the former with the result of `process_event`.  `stray` is what is read
where the pollset has no entry. -/
inductive StackAct where
  | call (call : MonitorCall)
  | wait (answer : Nat → Revents)
  | advance (stray : PollFd)
  | back (stop : Bool)

variable {act : StackAct}

namespace PollStack

/-- The engines of the table are not initialised. -/
def start (engines : Nat → Nat) : PollStack :=
  { poll := { fdTable := fun fd => ⟨none, engines fd⟩, pollset := [],
              retired := false }
    frames := [], log := [], accesses := [] }

/-- Code outside of `process_events` is at work: that of the owner of the
thread, of an engine or of a timer. -/
def free (s : PollStack) : Bool :=
  match s.frames with
  | [] => true
  | .timer :: _ => true
  | .handling _ _ _ :: _ => true
  | _ => false

/-- Wait for events; if there are none, handle the timer. -/
def wait (s : PollStack) (answer : Nat → Revents) : PollStack :=
  let w := s.poll.wait answer
  { s with
    poll := w.monitor
    frames := (if w.timeout then .timer else .turn 0) :: s.frames
    log := s.log ++ [.reported w.events] }

/-- The index of an entry's descriptor in the table; `retired_fd` is -1. -/
def slot (p : PollFd) : Int :=
  match p.fd with
  | some fd => fd
  | none => -1

/-- The begin of a turn: the assertion, the descriptor and the engine.  After the
last entry the pollset is cleaned up. -/
def turn (s : PollStack) (i : Nat) (rest : List PollFrame) : Option PollStack :=
  match s.poll.pollset[i]? with
  | none =>
      some
        { s with
          poll := s.poll.cleanUp.1
          frames := rest
          accesses := s.accesses ++ s.poll.cleanUp.2 }
  | some p =>
      if p.revents.pollnval then none
      else
        let engine := (p.fd.map fun fd => (s.poll.fdTable fd).engine).getD 0
        some
          { s with
            frames := .testing i ⟨p.fd, engine⟩ [.eventErr, .eventOut, .eventIn]
              :: rest
            accesses := s.accesses ++ [slot p] }

/-- The next event of the entry, unless it is retired. -/
def test (s : PollStack) (i : Nat) (vars : LoopVars) (todo : List Event)
    (rest : List PollFrame) (stray : PollFd) : PollStack :=
  let p := s.poll.pollset[i]?.getD stray
  match vars.fd, todo with
  | some fd, event :: todo =>
      if p.fd = none then { s with frames := .turn (i + 1) :: rest }
      else if p.revents.has event then
        { s with
          frames := .handling i vars todo :: rest
          log := s.log ++ [.callback fd vars.engine event] }
      else { s with frames := .testing i vars todo :: rest }
  | _, _ => { s with frames := .turn (i + 1) :: rest }

/-- A step; `size` is that of the table. -/
def step (size : Nat) (s : PollStack) : StackAct → Option PollStack
  | .call c =>
      if s.free ∧ c.fd < size then
        (s.poll.call c).map fun poll =>
          { s with poll := poll, log := s.log ++ [.call c] }
      else none
  | .wait answer => if s.free then some (s.wait answer) else none
  | .advance stray =>
      match s.frames with
      | .turn i :: rest => s.turn i rest
      | .testing i vars todo :: rest => some (s.test i vars todo rest stray)
      | _ => none
  | .back stop =>
      match s.frames with
      | .timer :: rest => some { s with frames := rest }
      | .handling i vars todo :: rest =>
          -- a result of `true` ends the round without the clean-up
          some { s with
            frames := if stop then rest else .testing i vars todo :: rest }
      | _ => none

/-- What a step does, case by case. -/
inductive Step (size : Nat) (s : PollStack) : StackAct → PollStack → Prop where
  | call {c : MonitorCall} {poll : Poll} (hfree : s.free = true)
      (hsize : c.fd < size) (hpoll : s.poll.call c = some poll) :
      Step size s (.call c) { s with poll := poll, log := s.log ++ [.call c] }
  | wait (hfree : s.free = true) (answer : Nat → Revents) :
      Step size s (.wait answer) (s.wait answer)
  | finish {i : Nat} {rest : List PollFrame} {stray : PollFd}
      (hframes : s.frames = .turn i :: rest)
      (hend : s.poll.pollset[i]? = none) :
      Step size s (.advance stray)
        { s with
          poll := s.poll.cleanUp.1
          frames := rest
          accesses := s.accesses ++ s.poll.cleanUp.2 }
  | turn {i : Nat} {rest : List PollFrame} {stray p : PollFd}
      (hframes : s.frames = .turn i :: rest)
      (hp : s.poll.pollset[i]? = some p) (hnval : ¬ p.revents.pollnval) :
      Step size s (.advance stray)
        { s with
          frames := .testing i
            ⟨p.fd, (p.fd.map fun fd => (s.poll.fdTable fd).engine).getD 0⟩
            [.eventErr, .eventOut, .eventIn] :: rest
          accesses := s.accesses ++ [slot p] }
  | test {i : Nat} {vars : LoopVars} {todo : List Event} {rest : List PollFrame}
      (hframes : s.frames = .testing i vars todo :: rest) (stray : PollFd) :
      Step size s (.advance stray) (s.test i vars todo rest stray)
  | timer {rest : List PollFrame} {stop : Bool}
      (hframes : s.frames = .timer :: rest) :
      Step size s (.back stop) { s with frames := rest }
  | back {i : Nat} {vars : LoopVars} {todo : List Event} {rest : List PollFrame}
      (hframes : s.frames = .handling i vars todo :: rest) (stop : Bool) :
      Step size s (.back stop)
        { s with frames := if stop then rest else .testing i vars todo :: rest }

theorem Step.of_step {size : Nat} {s s' : PollStack} {act : StackAct}
    (hs : step size s act = some s') : Step size s act s' := by
  cases act with
  | call c =>
      obtain ⟨⟨hfree, hsize⟩, hs⟩ := Option.ite_none_right_eq_some.mp hs
      obtain ⟨poll, hpoll, rfl⟩ := Option.map_eq_some_iff.mp hs
      exact .call hfree hsize hpoll
  | wait answer =>
      obtain ⟨hfree, hs⟩ := Option.ite_none_right_eq_some.mp hs
      cases hs
      exact .wait hfree answer
  | advance stray =>
      unfold PollStack.step at hs
      dsimp only at hs
      split at hs
      · next i rest hframes =>
          unfold PollStack.turn at hs
          split at hs
          · next hend =>
              cases hs
              exact .finish hframes hend
          · next p hp =>
              obtain ⟨hnval, hs⟩ := Option.ite_none_left_eq_some.mp hs
              cases hs
              exact .turn hframes hp hnval
      · next hframes =>
          cases hs
          exact .test hframes stray
      · cases hs
  | back stop =>
      unfold PollStack.step at hs
      dsimp only at hs
      split at hs
      · next hframes =>
          cases hs
          exact .timer hframes
      · next hframes =>
          cases hs
          exact .back hframes stop
      · cases hs

/-! ## Rounds that are not re-entrant -/

/-- The activation of a round. -/
def framesOf (r : RoundSys Poll) : List PollFrame :=
  if r.stopped then []
  else
    match r.cursor with
    | .outside => []
    | .turn i => [.turn i]
    | .testing i vars todo =>
        [if r.handling then .handling i vars todo else .testing i vars todo]

/-- A thread without an engine or a timer that begins a round. -/
def ofRound (r : RoundSys Poll) (accesses : List Int) : PollStack :=
  { poll := r.monitor, frames := framesOf r, log := r.log, accesses := accesses }

/-- The descriptor of a call has a slot in the table. -/
def CallsSlot (size : Nat) (_ : RoundSys Poll) :
    RoundAct (Nat → Revents) → Prop
  | .call c => c.fd < size
  | _ => True

/-- An engine is called inside a turn only. -/
def CallsInTurn (r : RoundSys Poll) : Prop :=
  r.handling = true → ∃ i vars todo, r.cursor = .testing i vars todo

section OfRound

variable {size : Nat} {engines : Nat → Nat} {r r' : RoundSys Poll}

/-- A step of the loop; an entry that is not there counts as retired. -/
theorem step_advance_ofRound (hstopped : r.stopped = false)
    (hhandling : r.handling = false)
    (hr : r.advance (Poll.monitor engines) = some r') (accesses : List Int) :
    CallsInTurn r' ∧ ∃ accesses', step size (ofRound r accesses)
      (.advance ⟨none, ⟨false, false⟩, .zero⟩) = some (ofRound r' accesses') := by
  obtain ⟨poll, cursor, handling, stopped, log⟩ := r
  dsimp only at hstopped hhandling
  subst hstopped hhandling
  cases cursor with
  | outside => cases hr
  | turn i =>
      show _ ∧ ∃ accesses', turn _ i [] = _
      cases hp : poll.pollset[i]? with
      | none =>
          have hge : ¬ i < poll.pollset.length :=
            Nat.not_lt.mpr (List.getElem?_eq_none_iff.mp hp)
          simp only [RoundSys.advance, Poll.monitor, hge, reduceIte] at hr
          cases hr
          simp only [turn, ofRound, hp, Poll.cleanUp_eq]
          exact ⟨by simp [CallsInTurn], _, rfl⟩
      | some p =>
          have hlt : i < poll.pollset.length :=
            (List.getElem?_eq_some_iff.mp hp).1
          simp only [RoundSys.advance, Poll.monitor, hlt, hp, reduceIte,
            Option.bind_some] at hr
          obtain ⟨vars, hvars, rfl⟩ := Option.map_eq_some_iff.mp hr
          obtain ⟨hnval, hvars⟩ := Option.ite_none_left_eq_some.mp hvars
          cases hvars
          simp only [turn, ofRound, hp, hnval]
          exact ⟨by simp [CallsInTurn], _, rfl⟩
  | testing i vars todo =>
      show _ ∧ ∃ accesses', some (test _ i vars todo [] _) = _
      obtain ⟨fd, engine⟩ := vars
      cases fd with
      | none =>
          cases hr
          exact ⟨by simp [CallsInTurn], _, rfl⟩
      | some fd =>
          cases todo with
          | nil =>
              cases hr
              exact ⟨by simp [CallsInTurn], _, rfl⟩
          | cons event todo =>
              simp only [RoundSys.advance, Poll.monitor] at hr
              cases hp : poll.pollset[i]? with
              | none =>
                  simp only [hp] at hr
                  cases hr
                  simp only [test, ofRound, hp]
                  exact ⟨by simp [CallsInTurn], _, rfl⟩
              | some p =>
                  simp only [hp, Option.any_some, decide_eq_true_eq] at hr
                  simp only [test, ofRound, hp, Option.getD_some]
                  by_cases hfd : p.fd = none
                  · rw [if_neg (not_not_intro hfd)] at hr
                    cases hr
                    exact ⟨by simp [CallsInTurn], accesses, by rw [if_pos hfd]; rfl⟩
                  · rw [if_pos hfd] at hr
                    rw [if_neg hfd]
                    cases hhas : p.revents.has event with
                    | true | false =>
                        rw [hhas] at hr
                        cases hr
                        exact ⟨by simp [CallsInTurn], _, rfl⟩

/-- A step of a round is one of a thread; if there are no events it is two, with
the return of the timers. -/
theorem step_ofRound (hturn : CallsInTurn r) {act : RoundAct (Nat → Revents)}
    (hok : CallsSlot size r act)
    (hr : RoundSys.step (Poll.monitor engines) r act = some r')
    (accesses : List Int) :
    CallsInTurn r' ∧ ∃ acts accesses',
      Run (step size) Any (ofRound r accesses) acts (ofRound r' accesses') := by
  obtain ⟨hstopped, hr⟩ := Option.ite_none_left_eq_some.mp hr
  rw [Bool.not_eq_true] at hstopped
  cases act with
  | call c =>
      obtain ⟨hwhere, hr⟩ := Option.ite_none_right_eq_some.mp hr
      obtain ⟨poll, hpoll, rfl⟩ := Option.map_eq_some_iff.mp hr
      have hfree : (ofRound r accesses).free = true := by
        rcases hwhere with houtside | hhandling
        · simp [free, ofRound, framesOf, hstopped, houtside]
        · obtain ⟨i, vars, todo, hcursor⟩ := hturn hhandling
          simp [free, ofRound, framesOf, hstopped, hcursor, hhandling]
      refine ⟨hturn, [.call c], accesses, .cons trivial ?_ (.nil _)⟩
      rw [step, if_pos ⟨hfree, hok⟩]
      exact Option.map_eq_some_iff.mpr ⟨poll, hpoll, rfl⟩
  | wait answer =>
      obtain ⟨houtside, hr⟩ := Option.ite_none_right_eq_some.mp hr
      cases hr
      have hfree : (ofRound r accesses).free = true := by
        simp [free, ofRound, framesOf, hstopped, houtside]
      have hidle : r.handling = false := by
        rw [← Bool.not_eq_true]
        intro hhandling
        obtain ⟨i, vars, todo, hcursor⟩ := hturn hhandling
        rw [houtside] at hcursor
        cases hcursor
      refine ⟨fun hhandling => ?_, ?_⟩
      · rw [RoundSys.wait, hidle] at hhandling
        cases hhandling
      have hwait : step size (ofRound r accesses) (.wait answer) =
          some ((ofRound r accesses).wait answer) := if_pos hfree
      cases htimeout : (r.monitor.wait answer).timeout with
      | true =>
          refine ⟨[.wait answer, .back false], accesses,
            .cons trivial hwait (.cons trivial ?_ (.nil _))⟩
          simp [step, wait, ofRound, framesOf, RoundSys.wait, Poll.monitor,
            htimeout, hstopped, houtside]
      | false =>
          refine ⟨[.wait answer], accesses, .cons trivial (hwait.trans ?_) (.nil _)⟩
          simp [wait, ofRound, framesOf, RoundSys.wait, Poll.monitor, htimeout,
            hstopped, houtside]
  | advance =>
      obtain ⟨hhandling, hr⟩ := Option.ite_none_left_eq_some.mp hr
      rw [Bool.not_eq_true] at hhandling
      obtain ⟨hturn', accesses', hs⟩ :=
        step_advance_ofRound hstopped hhandling hr accesses
      exact ⟨hturn', _, accesses', .cons trivial hs (.nil _)⟩
  | back stop =>
      obtain ⟨hhandling, hr⟩ := Option.ite_none_right_eq_some.mp hr
      cases hr
      obtain ⟨i, vars, todo, hcursor⟩ := hturn hhandling
      refine ⟨by rintro ⟨⟩, [.back stop], accesses,
        .cons trivial ?_ (.nil _)⟩
      cases stop with
      | true
      | false => simp [step, ofRound, framesOf, hstopped, hcursor, hhandling]

/-- The rounds in which no other is begun are runs of a thread. -/
theorem exists_run_ofRound {acts : List (RoundAct (Nat → Revents))}
    (h : Run (RoundSys.step (Poll.monitor engines)) (CallsSlot size)
      (RoundSys.start (Poll.monitor engines)) acts r) :
    ∃ acts' accesses, Run (step size) Any (start engines) acts'
      (ofRound r accesses) := by
  refine (h.invariant (I := fun r => CallsInTurn r ∧ ∃ acts' accesses,
    Run (step size) Any (start engines) acts' (ofRound r accesses)) ?_
    ⟨nofun, [], [], .nil _⟩).2
  rintro r act r' ⟨hturn, acts', accesses, hrun⟩ hok hr
  obtain ⟨hturn', more, accesses', hmore⟩ := step_ofRound hturn hok hr accesses
  exact ⟨hturn', _, accesses', hrun.append hmore⟩

end OfRound

/-! ## The table and the pollset -/

/-- What every step keeps: the pollset is related to the history, its entries
ask for what has been asked for, they are about slots of the table, and those
that are retired have been noted. -/
structure Inv (size : Nat) (s : PollStack) : Prop where
  rel : Poll.Rel s.poll (Ledger.ofLog s.log)
  masks : ∀ p ∈ s.poll.pollset, ∀ fd, p.fd = some fd → Asked s.log fd p.events
  bound : ∀ p ∈ s.poll.pollset, ∀ fd, p.fd = some fd → fd < size
  noted : ∀ p ∈ s.poll.pollset, p.fd = none → s.poll.retired = true

variable {size : Nat} {s s' : PollStack}

theorem Inv.start (engines : Nat → Nat) : Inv size (start engines) where
  rel := (Poll.simulates engines).start
  masks := fun _ hp => by cases hp
  bound := fun _ hp => by cases hp
  noted := fun _ hp => by cases hp

theorem Inv.congr (h : Inv size s) (hpoll : s'.poll = s.poll)
    (hlog : s'.log = s.log) : Inv size s' where
  rel := by
    rw [hpoll, hlog]
    exact h.rel
  masks := by
    rw [hpoll, hlog]
    exact h.masks
  bound := by
    rw [hpoll]
    exact h.bound
  noted := by
    rw [hpoll]
    exact h.noted

theorem Inv.call (h : Inv size s) {poll : Poll} (hsize : c.fd < size)
    (hs : s.poll.call c = some poll) :
    Inv size { s with poll := poll, log := s.log ++ [.call c] } where
  rel := by
    rw [Ledger.ofLog_concat]
    exact h.rel.call hs
  masks p hp fd hfd := by
    rcases Poll.entry_of_call h.rel hs hp hfd with
      ⟨engine, rfl, hevents⟩ | ⟨hrm, hadd, q, hq, hqfd, hevents⟩
    · exact ⟨s.log, engine, [], rfl, List.not_mem_nil, fun _ => List.not_mem_nil,
        hevents⟩
    · rw [hevents]
      refine (h.masks q hq fd hqfd).concat ?_ fun engine => ?_
      · rintro ⟨⟩
        exact hrm rfl
      · rintro ⟨⟩
        exact hadd engine rfl
  bound p hp fd hfd := by
    rcases Poll.entry_of_call h.rel hs hp hfd with
      ⟨engine, rfl, _⟩ | ⟨_, _, q, hq, hqfd, _⟩
    · exact hsize
    · exact h.bound q hq fd hqfd
  noted p hp hfd := by
    obtain ⟨k, hk⟩ := List.getElem?_of_mem hp
    rcases Poll.retired_of_call hs hk hfd with ⟨⟨q, hq, hqfd⟩, hkept⟩ | ⟨_, hnew⟩
    · exact hkept (h.noted q (List.mem_of_getElem? hq) hqfd)
    · exact hnew

theorem Inv.wait (h : Inv size s) (answer : Nat → Revents) :
    Inv size (s.wait answer) where
  rel := by
    rw [PollStack.wait, Ledger.ofLog_concat]
    exact h.rel.wait answer
  masks p hp fd hfd := by
    obtain ⟨q, hq, rfl⟩ := List.mem_map.mp hp
    exact (h.masks q hq fd hfd).concat nofun nofun
  bound p hp fd hfd := by
    obtain ⟨q, hq, rfl⟩ := List.mem_map.mp hp
    exact h.bound q hq fd hfd
  noted p hp hfd := by
    obtain ⟨q, hq, rfl⟩ := List.mem_map.mp hp
    exact h.noted q hq hfd

/-- The clean-up leaves the entries in use, whether or not it has anything to
do. -/
theorem Inv.pollset_finish (h : Inv size s) :
    s.poll.finish.pollset = s.poll.pollset.filter fun p => p.fd ≠ none := by
  unfold Poll.finish
  split
  · rfl
  · next hretired =>
      refine (List.filter_eq_self.mpr fun p hp => ?_).symm
      exact decide_eq_true fun hfd => hretired (h.noted p hp hfd)

theorem Inv.cleanUp (h : Inv size s) :
    Inv size { s with poll := s.poll.cleanUp.1 } := by
  rw [Poll.cleanUp_eq]
  have hmem : ∀ p ∈ s.poll.finish.pollset, p ∈ s.poll.pollset ∧ p.fd ≠ none := by
    intro p hp
    rw [h.pollset_finish, List.mem_filter] at hp
    exact ⟨hp.1, of_decide_eq_true hp.2⟩
  exact
    { rel := h.rel.finish
      masks := fun p hp => h.masks p (hmem p hp).1
      bound := fun p hp => h.bound p (hmem p hp).1
      noted := fun p hp hfd => ((hmem p hp).2 hfd).elim }

theorem Inv.callback (h : Inv size s) (fd engine : Nat) (event : Event) :
    Inv size { s with log := s.log ++ [.callback fd engine event] } where
  rel := by
    rw [Ledger.ofLog_concat]
    exact h.rel
  masks p hp x hx := (h.masks p hp x hx).concat nofun nofun
  bound := h.bound
  noted := h.noted

theorem Inv.test (h : Inv size s) (i : Nat) (vars : LoopVars)
    (todo : List Event) (rest : List PollFrame) (stray : PollFd) :
    Inv size (s.test i vars todo rest stray) := by
  unfold PollStack.test
  dsimp only
  split
  · next fd event todo _ =>
      split
      · exact h.congr rfl rfl
      · split
        · exact (h.callback fd vars.engine event).congr rfl rfl
        · exact h.congr rfl rfl
  · exact h.congr rfl rfl

theorem Inv.step (h : Inv size s) (hs : PollStack.step size s act = some s') :
    Inv size s' := by
  cases Step.of_step hs with
  | call _ hsize hpoll => exact h.call hsize hpoll
  | wait _ answer => exact h.wait answer
  | finish => exact h.cleanUp.congr rfl rfl
  | test => exact h.test ..
  | turn | timer | back => exact h.congr rfl rfl

/-- The table and the pollset agree: the index of a descriptor is `retired_fd`
or the position of its one and only entry, which has the events asked for; a
retired entry is nobody's, and it is those that a clean-up drops. -/
structure Consistent (s : PollStack) : Prop where
  table : ∀ fd, (s.poll.fdTable fd).index = none ∨
    ∃ i p, (s.poll.fdTable fd).index = some i ∧
      s.poll.pollset[i]? = some p ∧ p.fd = some fd ∧
      ∀ j q, s.poll.pollset[j]? = some q → q.fd = some fd → j = i
  live : ∀ (i : Nat) p fd, s.poll.pollset[i]? = some p → p.fd = some fd →
    (s.poll.fdTable fd).index = some i
  retired : ∀ (i : Nat) p, s.poll.pollset[i]? = some p → p.fd = none →
    ∀ fd, (s.poll.fdTable fd).index ≠ some i
  masks : ∀ p ∈ s.poll.pollset, ∀ fd, p.fd = some fd → Asked s.log fd p.events
  cleanUp : s.poll.cleanUp.1.pollset =
    s.poll.pollset.filter fun p => p.fd ≠ none

theorem Inv.consistent (h : Inv size s) : s.Consistent where
  table fd := by
    cases hindex : (s.poll.fdTable fd).index with
    | none => exact .inl rfl
    | some i =>
        obtain ⟨p, hp, hfd⟩ := (h.rel.index fd i).mp hindex
        refine .inr ⟨i, p, rfl, hp, hfd, fun j q hq hqfd => ?_⟩
        have hj := h.rel.index_of_getElem? hq hqfd
        rw [hindex] at hj
        exact (Option.some.inj hj).symm
  live i p fd hp hfd := h.rel.index_of_getElem? hp hfd
  retired i p hp hfd fd hindex := by
    obtain ⟨q, hq, hqfd⟩ := (h.rel.index fd i).mp hindex
    rw [hp] at hq
    cases hq
    rw [hfd] at hqfd
    cases hqfd
  masks := h.masks
  cleanUp := by
    rw [Poll.cleanUp_eq]
    exact h.pollset_finish

end PollStack

/-- Whatever the engines and the timers call in a round, rounds of their own
included, the table and the pollset agree. -/
theorem poll_consistent (size : Nat) (engines : Nat → Nat)
    {acts : List StackAct} {s : PollStack}
    (h : Run (PollStack.step size) Any (PollStack.start engines) acts s) :
    s.Consistent := by
  have hinv : PollStack.Inv size s :=
    h.invariant (fun _ _ _ hinv _ hs => hinv.step hs) (.start engines)
  exact hinv.consistent

/-- Input on the descriptors of a list. -/
def inputOn (fds : List Nat) (fd : Nat) : Revents :=
  if fd ∈ fds then ⟨true, false, false, false⟩ else .zero

/-- Steps of the loop that read no stray entry. -/
def advances (n : Nat) : List StackAct :=
  List.replicate n (.advance ⟨none, ⟨false, false⟩, .zero⟩)

/-- The engine of the descriptor 5 removes it, adds it anew and begins a round in
which everybody is called and the pollset is cleaned up. -/
def nestedRound : List StackAct :=
  [.call (.addFd 5 1), .call (.setPollin 5), .call (.addFd 6 2),
    .wait (inputOn [5])] ++ advances 4 ++
  [.call (.rmFd 5), .call (.addFd 5 3), .call (.setPollout 5),
    .wait (inputOn [5, 6])] ++ advances 6 ++ [.back false] ++ advances 5 ++
  [.back false] ++ advances 2 ++ [.back false] ++ advances 5 ++
  [.back false] ++ advances 2

theorem poll_consistent_nested :
    ∃ s, Run (PollStack.step 1024) Any (PollStack.start id) nestedRound s ∧
      s.frames = [] ∧
      s.poll.pollset.map (fun p => (p.fd, p.events)) =
        [(some 6, ⟨false, false⟩), (some 5, ⟨false, true⟩)] ∧ s.Consistent :=
  Run.exists_of_exec (by decide +kernel)
    fun _ hrun hs => ⟨And.left hs, And.right hs, poll_consistent 1024 id hrun⟩

/-! ## Accesses to the table -/

namespace PollStack

variable {size : Nat} {s s' : PollStack}

/-- A turn of the loop does not begin at a retired entry. -/
def TurnsLive (s : PollStack) : StackAct → Prop
  | .advance _ => ∀ i rest p, s.frames = .turn i :: rest →
      s.poll.pollset[i]? = some p → p.fd ≠ none
  | _ => True

theorem Inv.slot (h : Inv size s) {p : PollFd} (hp : p ∈ s.poll.pollset) :
    slot p = -1 ∧ p.fd = none ∨
      (0 ≤ slot p ∧ slot p < size) ∧ p.fd ≠ none := by
  unfold PollStack.slot
  cases hfd : p.fd with
  | none => exact .inl ⟨rfl, rfl⟩
  | some fd =>
      have hlt := h.bound p hp fd hfd
      refine .inr ⟨?_, nofun⟩
      dsimp only
      omega

/-- The clean-up accesses the table at the entries in use only. -/
theorem Inv.cleanUp_accesses (h : Inv size s) {x : Int}
    (hx : x ∈ s.poll.cleanUp.2) : 0 ≤ x ∧ x < size := by
  rw [Poll.cleanUp_eq] at hx
  dsimp only at hx
  split at hx
  · obtain ⟨fd, hmem, rfl⟩ := List.mem_map.mp hx
    obtain ⟨p, hp, hfd⟩ := List.mem_filterMap.mp hmem
    have hlt := h.bound p hp fd hfd
    rw [Int.ofNat_eq_natCast]
    omega
  · cases hx

theorem Inv.accesses (h : Inv size s)
    (hs : PollStack.step size s act = some s') :
    ∃ new, s'.accesses = s.accesses ++ new ∧
      (∀ x ∈ new, x = -1 ∨ 0 ≤ x ∧ x < size) ∧ (-1 ∉ new ↔ s.TurnsLive act) := by
  have hnone : ∀ s' : PollStack, s'.accesses = s.accesses → s.TurnsLive act →
      ∃ new, s'.accesses = s.accesses ++ new ∧
        (∀ x ∈ new, x = -1 ∨ 0 ≤ x ∧ x < size) ∧
        (-1 ∉ new ↔ s.TurnsLive act) := by
    intro s' heq hlive
    exact ⟨[], by rw [heq, List.append_nil], nofun, fun _ => hlive, fun _ => nofun⟩
  cases Step.of_step hs with
  | call | wait | timer | back => exact hnone _ rfl trivial
  | finish hframes hend =>
      refine ⟨_, rfl, fun x hx => .inr (h.cleanUp_accesses hx), ?_⟩
      refine ⟨fun _ j rest' p hj hp => ?_, fun _ hmem => ?_⟩
      · rw [hframes] at hj
        cases hj
        rw [hend] at hp
        cases hp
      · exact absurd (h.cleanUp_accesses hmem).1 (by decide)
  | @turn i rest _ p hframes hp =>
      have hslot := h.slot (List.mem_of_getElem? hp)
      refine ⟨_, rfl, fun x hx => ?_, ?_⟩
      · rw [List.mem_singleton.mp hx]
        exact hslot.imp And.left And.left
      · rw [List.mem_singleton]
        refine ⟨fun hne j rest' q hj hq => ?_, fun hlive heq => ?_⟩
        · rw [hframes] at hj
          cases hj
          rw [hp] at hq
          cases hq
          exact (hslot.resolve_left fun hbad => hne hbad.1.symm).2
        · have hfd := hlive i rest p hframes hp
          have hbad := (hslot.resolve_left fun hbad => hfd hbad.2).1.1
          omega
  | test hframes =>
      refine hnone _ ?_ fun j rest' p hj => ?_
      · unfold PollStack.test
        dsimp only
        repeat' split
        all_goals rfl
      · rw [hframes] at hj
        cases hj

/-- Every access is within the table. -/
def Within (size : Nat) (s : PollStack) : Prop :=
  ∀ i ∈ s.accesses, 0 ≤ i ∧ i < (size : Int)

/-- A step that begins a turn at a retired entry leaves the table, and no other
does. -/
theorem Inv.within_iff (h : Inv size s)
    (hs : PollStack.step size s act = some s') :
    s'.Within size ↔ s.Within size ∧ s.TurnsLive act := by
  obtain ⟨new, heq, hrange, hlive⟩ := h.accesses hs
  rw [Within, heq, List.forall_mem_append, ← hlive]
  refine and_congr_right fun _ => ⟨fun hall hbad => ?_, fun hno x hx => ?_⟩
  · exact absurd (hall _ hbad).1 (by decide)
  · refine (hrange x hx).resolve_left ?_
    rintro rfl
    exact hno hx

/-! ## Where entries are removed -/

/-- `rm_fd` is called by an engine, in a round that is the only one, for an
entry that the loop has come to; and the engine then neither begins a round nor
ends its own before the clean-up. -/
def RemovesPassed (s : PollStack) : StackAct → Prop
  | .call (.rmFd fd) => ∃ i vars todo, s.frames = [.handling i vars todo] ∧
      ∀ k, (s.poll.fdTable fd).index = some k → k ≤ i
  | .wait _ => s.poll.retired = false
  | .back stop => stop = true → s.poll.retired = false
  | _ => True

/-- The entries that are retired are behind the loop of the only round. -/
def Behind (s : PollStack) : Prop :=
  ∀ k p, s.poll.pollset[k]? = some p → p.fd = none →
    ∃ frame, s.frames = [frame] ∧ k < frame.next

theorem Behind.turnsLive (h : Behind s) (act : StackAct) : s.TurnsLive act := by
  cases act with
  | advance stray =>
      intro i rest p hframes hp hfd
      obtain ⟨frame, hframe, hlt⟩ := h i p hp hfd
      rw [hframes] at hframe
      cases hframe
      exact Nat.lt_irrefl i hlt
  | _ => trivial

theorem Behind.move (h : Behind s) {frame frame' : PollFrame}
    {rest : List PollFrame} (hframes : s.frames = frame :: rest)
    (hpoll : s'.poll = s.poll) (hframes' : s'.frames = frame' :: rest)
    (hnext : frame.next ≤ frame'.next) : Behind s' := by
  intro k p hp hfd
  rw [hpoll] at hp
  obtain ⟨f, hf, hlt⟩ := h k p hp hfd
  rw [hframes] at hf
  cases hf
  exact ⟨frame', hframes', Nat.lt_of_lt_of_le hlt hnext⟩

theorem Inv.behind_of_not_retired (h : Inv size s)
    (hretired : s.poll.retired = false) : Behind s := by
  intro k p hp hfd
  have hnoted := h.noted p (List.mem_of_getElem? hp) hfd
  rw [hretired] at hnoted
  cases hnoted

theorem Behind.call (h : Behind s) {poll : Poll} {log : List MonitorEntry}
    (hok : s.RemovesPassed (.call c)) (hs : s.poll.call c = some poll) :
    Behind { s with poll := poll, log := log } := by
  intro k p hp hfd
  rcases Poll.retired_of_call hs hp hfd with
    ⟨⟨q, hq, hqfd⟩, _⟩ | ⟨⟨fd, rfl, hindex⟩, _⟩
  · exact h k q hq hqfd
  · obtain ⟨i, vars, todo, hframes, hle⟩ := hok
    exact ⟨_, hframes, Nat.lt_succ_of_le (hle k hindex)⟩

theorem Behind.test (h : Behind s) {i : Nat} {vars : LoopVars}
    {todo : List Event} {rest : List PollFrame}
    (hframes : s.frames = .testing i vars todo :: rest) (stray : PollFd) :
    Behind (s.test i vars todo rest stray) := by
  unfold PollStack.test
  dsimp only
  split
  · split
    · exact h.move hframes rfl rfl (Nat.le_refl _)
    · split
      · exact h.move hframes rfl rfl (Nat.le_refl _)
      · exact h.move hframes rfl rfl (Nat.le_refl _)
  · exact h.move hframes rfl rfl (Nat.le_refl _)

theorem Behind.step (h : Behind s) (hinv : Inv size s)
    (hok : s.RemovesPassed act) (hs : PollStack.step size s act = some s') :
    Behind s' := by
  cases Step.of_step hs with
  | call _ _ hpoll => exact h.call hok hpoll
  | wait _ answer => exact (hinv.wait answer).behind_of_not_retired hok
  | finish =>
      intro k p hp hfd
      have hmem := List.mem_of_getElem? hp
      rw [hinv.consistent.cleanUp, List.mem_filter] at hmem
      exact (of_decide_eq_true hmem.2 hfd).elim
  | turn hframes => exact h.move hframes rfl rfl (Nat.le_succ _)
  | test hframes stray => exact h.test hframes stray
  | timer hframes =>
      intro k p hp hfd
      obtain ⟨frame, hframe, hlt⟩ := h k p hp hfd
      rw [hframes] at hframe
      cases hframe
      exact (Nat.not_lt_zero k hlt).elim
  | back hframes stop =>
      cases stop with
      | true => exact Inv.behind_of_not_retired (hinv.congr rfl rfl) (hok rfl)
      | false => exact h.move hframes rfl rfl (Nat.le_refl _)

end PollStack

/-- The table is accessed at -1 or within its bounds, and always within them
exactly if no turn of the loop begins at a retired entry. -/
theorem table_accesses_iff (size : Nat) (engines : Nat → Nat)
    {acts : List StackAct} {s : PollStack}
    (h : Run (PollStack.step size) Any (PollStack.start engines) acts s) :
    (s.Within size ↔
      Run (PollStack.step size) PollStack.TurnsLive (PollStack.start engines)
        acts s) ∧
      ∀ i ∈ s.accesses, i = -1 ∨ 0 ≤ i ∧ i < (size : Int) := by
  constructor
  · have hiff := Run.iff_of_step
      (fun _ _ _ (hinv : PollStack.Inv size _) hs => hinv.step hs)
      (fun _ _ _ hinv hs => hinv.within_iff hs) h (.start engines)
    exact hiff.trans ⟨And.right, fun hrun => ⟨nofun, hrun⟩⟩
  · refine (h.invariant (I := fun s => PollStack.Inv size s ∧
      ∀ i ∈ s.accesses, i = -1 ∨ 0 ≤ i ∧ i < (size : Int)) ?_
      ⟨.start engines, nofun⟩).2
    rintro s act s' ⟨hinv, hold⟩ _ hs
    refine ⟨hinv.step hs, ?_⟩
    obtain ⟨new, heq, hrange, _⟩ := hinv.accesses hs
    rw [heq]
    exact List.forall_mem_append.mpr ⟨hold, hrange⟩

/-- The table is accessed within its bounds if what an engine removes has been
looked at, and the clean-up comes before the next round. -/
theorem within_of_removesPassed (size : Nat) (engines : Nat → Nat)
    {acts : List StackAct} {s : PollStack}
    (h : Run (PollStack.step size) PollStack.RemovesPassed
      (PollStack.start engines) acts s) : s.Within size := by
  refine (h.invariant (I := fun s => PollStack.Inv size s ∧ s.Behind ∧
    s.Within size) ?_ ⟨.start engines, nofun, nofun⟩).2.2
  rintro s act s' ⟨hinv, hbehind, hwithin⟩ hok hs
  exact ⟨hinv.step hs, hbehind.step hinv hok hs,
    (hinv.within_iff hs).mpr ⟨hwithin, hbehind.turnsLive act⟩⟩

/-- The engine of the descriptor 5 removes it and adds another. -/
def ownRemoval : List StackAct :=
  [.call (.addFd 5 1), .call (.setPollin 5), .call (.addFd 6 2),
    .wait (inputOn [5])] ++ advances 4 ++
  [.call (.rmFd 5), .call (.addFd 7 3), .back false] ++ advances 12

theorem table_accesses_own :
    ∃ s, Run (PollStack.step 1024) PollStack.TurnsLive (PollStack.start id)
        ownRemoval s ∧ s.frames = [] ∧ s.accesses = [5, 6, 7, 6, 7] := by
  have hexec : ∃ s, Run (PollStack.step 1024) Any (PollStack.start id)
      ownRemoval s ∧ s.frames = [] ∧ s.accesses = [5, 6, 7, 6, 7] :=
    Run.of_exec_any (by decide +kernel)
  obtain ⟨s, hrun, hframes, haccesses⟩ := hexec
  refine ⟨s, (table_accesses_iff 1024 id hrun).1.mp ?_, hframes, haccesses⟩
  rw [PollStack.Within, haccesses]
  decide

/-- The engine of the descriptor 5 removes 6, which comes after it. -/
def laterRemoval : List StackAct :=
  [.call (.addFd 5 1), .call (.setPollin 5), .call (.addFd 6 2),
    .wait (inputOn [5])] ++ advances 4 ++ [.call (.rmFd 6), .back false] ++
  advances 2

/-- A timer removes the descriptor 6; in the next round there is input on 5. -/
def timerRemoval : List StackAct :=
  [.call (.addFd 5 1), .call (.setPollin 5), .call (.addFd 6 2),
    .wait (inputOn []), .call (.rmFd 6), .back false,
    .wait (inputOn [5])] ++ advances 4 ++ [.back false] ++ advances 2

/-- The loop comes to the retired entry and accesses the table at -1. -/
theorem table_accesses_retired :
    (∃ s, Run (PollStack.step 1024) Any (PollStack.start id) laterRemoval s ∧
      s.accesses = [5, -1] ∧ ¬ s.Within 1024) ∧
    ∃ s, Run (PollStack.step 1024) Any (PollStack.start id) timerRemoval s ∧
      s.accesses = [5, -1] ∧ ¬ s.Within 1024 := by
  have hbad : ∀ acts, (exec (PollStack.step 1024) Any (PollStack.start id)
      acts).any (fun s => decide (s.accesses = [5, -1])) = true →
      ∃ s, Run (PollStack.step 1024) Any (PollStack.start id) acts s ∧
        s.accesses = [5, -1] ∧ ¬ s.Within 1024 := by
    intro acts hexec
    refine Run.exists_of_exec hexec ?_
    intro s _ haccesses
    refine ⟨haccesses, ?_⟩
    rw [PollStack.Within, haccesses]
    decide
  exact ⟨hbad laterRemoval (by decide +kernel),
    hbad timerRemoval (by decide +kernel)⟩

end ZeroMQ
