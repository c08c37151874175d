import Mathlib.Logic.Function.Basic
import ZeroMQ.Engine.Safety

/-!
# The timers of an I/O thread

An engine that cannot reconnect at once asks the thread it lives in for a timer.
`poller_t` keeps a vector of those who have asked.  When the wait for events
runs out of time it copies the vector, clears it, and calls `timer_event` of
every engine in the copy, which may ask again.  The engine asserts that it is
waiting; one that waits and is not in the vector would wait forever.

## Main definitions

* `BpTcpEngine.Timed` — one timer is pending exactly while the engine waits.
* `IoThread` — the engines of a thread, the vector, and the copy under way.

## Main results

* `BpTcpEngine.Timed.step` — every handler keeps the engine so.
* `timers_exact` — in every run of a thread the vector and the copy hold the
  engines that wait, each of them once.
-/

namespace ZeroMQ

open ZeroMQ.Lib

/-- The timer that goes off. -/
def EngineAct.fired {μ δ : Type} : EngineAct μ δ → Nat
  | .timer _ => 1
  | _ => 0

namespace BpTcpEngine

variable {μ δ : Type} {e e' : BpTcpEngine μ δ} {env : EngineEnv} {n : Nat}

/-- Beyond `n`, one timer is pending if the engine waits to reconnect, and
otherwise none. -/
def Timed (n : Nat) (e : BpTcpEngine μ δ) : Prop :=
  n ≤ e.timers ∧ (e.aborted = true ∨
    e.timers = n + if e.state = .waitingForReconnect then 1 else 0)

theorem Timed.of_aborted (h : e.timers = n) (haborted : e.aborted = true) :
    Timed n e :=
  ⟨Nat.le_of_eq h.symm, .inl haborted⟩

theorem Timed.of_ne (h : e.timers = n)
    (hstate : e.state ≠ .waitingForReconnect) : Timed n e :=
  ⟨Nat.le_of_eq h.symm, .inr (by rw [if_neg hstate, h, Nat.add_zero])⟩

/-- The one call of `add_timer`. -/
theorem Timed.waitForReconnect (h : e.timers = n) :
    Timed n e.waitForReconnect :=
  ⟨h ▸ Nat.le_succ _, .inr (congrArg (· + 1) h)⟩

theorem timers_close (e : BpTcpEngine μ δ) : e.close.timers = e.timers := by
  unfold close
  split <;> rfl

theorem Timed.reopen (h : e.timers = n) : Timed n (e.reopen env) := by
  unfold BpTcpEngine.reopen
  split
  · split
    · exact .waitForReconnect h
    · exact .of_ne h (by simp)
  · exact .of_aborted h rfl

theorem Timed.reconnect (h : e.timers = n) : Timed n (e.reconnect env) := by
  have hdrop : e.dropSocket.timers = n := (timers_close e.rmFd).trans h
  unfold BpTcpEngine.reconnect
  split
  · dsimp only
    split
    · next haborted => exact .of_aborted hdrop haborted
    · split
      · exact .waitForReconnect hdrop
      · exact .reopen hdrop
  · exact .reopen h

/-- `register_event` finds the engine as it was created. -/
theorem Timed.registerEvent (h : e.timers = n)
    (hstate : e.state ≠ .waitingForReconnect) :
    Timed n (e.registerEvent env) := by
  unfold BpTcpEngine.registerEvent
  dsimp only
  split
  · exact .waitForReconnect (e := { e with polled := true }) h
  · split
    · exact .of_ne h hstate
    · split <;> exact .of_ne h hstate

theorem Timed.created (h : Created e) : e.timers = 0 ∧ Timed 0 e := by
  cases h <;> simp [Timed, connecter, accepted, create]

theorem Timed.repoll (h : e.timers = n)
    (hstate : e.state ≠ .waitingForReconnect) {stuck : Bool} :
    Timed n (e.repoll stuck) := by
  unfold BpTcpEngine.repoll
  split <;> split <;> exact .of_ne h hstate

variable [IDemux δ]

theorem Timed.decode (h : e.timers = n)
    (hstate : e.state ≠ .waitingForReconnect) {stuck : Bool} :
    Timed n (e.decode stuck) := by
  unfold BpTcpEngine.decode
  split
  · dsimp only
    split
    · -- flushing the pipes changes neither the timers nor the state
      show Timed n (BpTcpEngine.repoll stuck _)
      apply Timed.repoll
      · exact h
      · exact hstate
    · apply Timed.repoll
      · exact h
      · exact hstate
  · exact .of_ne h hstate

theorem timers_discard (e : BpTcpEngine μ δ) : e.discard.timers = e.timers := by
  unfold discard
  split <;> rfl

variable [Mux μ]

theorem Timed.shutdown (h : e.timers = n) : Timed n e.shutdown := by
  have hclose : e.rmFd.close.timers = n := (timers_close e.rmFd).trans h
  unfold BpTcpEngine.shutdown
  dsimp only
  split
  · next haborted => exact .of_aborted hclose haborted
  · exact .of_ne hclose (by simp)

theorem Timed.error (h : e.timers = n) : Timed n (e.error env) := by
  have hdiscard : e.discard.timers = n := (timers_discard e).trans h
  unfold BpTcpEngine.error
  dsimp only
  split
  · exact .of_aborted hdiscard rfl
  · split
    · exact .reconnect hdiscard
    · exact .shutdown hdiscard

/-! The handlers of events, in an engine that does not wait. -/

theorem Timed.inEvent (h : e.timers = n)
    (hstate : e.state ≠ .waitingForReconnect) (origin : Origin) :
    Timed n (e.inEvent origin env) := by
  unfold BpTcpEngine.inEvent
  split
  · dsimp only
    split
    · exact .error h
    · exact .of_aborted h rfl
  · split
    · unfold BpTcpEngine.receive
      split
      · exact .error h
      · apply Timed.decode
        · exact h
        · exact hstate
    · exact .decode h hstate

theorem Timed.outEvent (h : e.timers = n)
    (hstate : e.state ≠ .waitingForReconnect) : Timed n (e.outEvent env) := by
  have hfill : e.fill.timers = n ∧ e.fill.state = e.state := by
    unfold fill
    split
    · dsimp only
      split <;> exact ⟨h, rfl⟩
    · exact ⟨h, rfl⟩
  unfold BpTcpEngine.outEvent
  split
  · split
    · exact .error h
    · unfold connected
      dsimp only
      split <;> split <;> exact .of_ne h (by simp)
  · unfold send
    have hne : e.fill.state ≠ .waitingForReconnect := hfill.2 ▸ hstate
    split
    · dsimp only
      split
      · exact .error hfill.1
      · exact .of_ne hfill.1 hne
    · exact .of_ne hfill.1 hne

/-- Every event, and every command where it does no harm, keeps one timer
pending exactly while the engine waits. -/
theorem Timed.step (ht : Timed 0 e) (h : SafeInv e) {act : EngineAct μ δ}
    (hok : HeadSafe e act) (hs : step e act = some e') :
    Timed 0 e' ∧ e.timers ≤ e'.timers + act.fired := by
  obtain ⟨haborted, hs⟩ := Step.of_step hs
  have htimers : e.timers = if e.state = .waitingForReconnect then 1 else 0 := by
    simpa [Timed, haborted] using ht
  -- an engine that does not wait has no timer that could be forgotten
  have hother : ∀ {d : BpTcpEngine μ δ}, e.state ≠ .waitingForReconnect →
      (e.timers = 0 → Timed 0 d) →
      Timed 0 d ∧ e.timers ≤ d.timers + act.fired := by
    intro d hstate hnext
    rw [if_neg hstate] at htimers
    exact ⟨hnext htimers, by omega⟩
  have hsame : ∀ {d : BpTcpEngine μ δ}, d.timers = e.timers →
      d.state = e.state → Timed 0 d ∧ e.timers ≤ d.timers + act.fired := by
    intro d htimers' hstate
    exact ⟨⟨Nat.zero_le _, .inr (by rw [htimers', hstate, htimers]; simp)⟩,
      by omega⟩
  have hrunning : Running e → e.state ≠ .waitingForReconnect := by
    intro hrun hwait
    simpa [hwait] using hrun.state
  cases hs with
  | register hp =>
      obtain ⟨_, hstate, _⟩ := (h.place haborted).fresh hp
      have hne : e.state ≠ .waitingForReconnect := by
        rcases hstate with hs | hs <;> simp [hs]
      exact hother hne fun h0 => .registerEvent h0 hne
  | inEvent hreg =>
      have hne := hrunning (h.running_of_registered haborted hreg)
      exact hother hne fun h0 => .inEvent h0 hne _
  | outEvent hreg =>
      have hne := hrunning (h.running_of_registered haborted hreg)
      exact hother hne fun h0 => .outEvent h0 hne
  | timer hpending =>
      have hwait : e.state = .waitingForReconnect := by
        by_contra hne
        exact hpending (htimers.trans (if_neg hne))
      rw [if_pos hwait] at htimers
      rw [timerEvent, if_pos hwait]
      exact ⟨.reconnect (by simp [htimers]), by simp [EngineAct.fired, htimers]⟩
  | head hp =>
      have hne : e.state ≠ .waitingForReconnect := by
        rcases hok with hs | ⟨hs, _⟩ <;> simp [hs]
      exact hother hne fun h0 => .inEvent (e := e.mapDemux _) h0 hne _
  | revive hp =>
      unfold BpTcpEngine.revive
      dsimp only
      split
      · next hready =>
          have hne : e.state ≠ .waitingForReconnect := by
            intro hwait
            cases hwait.symm.trans hready.1
          exact hother hne fun h0 => .outEvent h0 hne
      · exact hsame rfl rfl
  | sendTo hp =>
      unfold BpTcpEngine.sendTo
      dsimp only
      split <;> exact hsame rfl rfl
  | receiveFrom hp =>
      unfold BpTcpEngine.receiveFrom
      dsimp only
      split
      · split <;> exact hsame rfl rfl
      · exact hsame rfl rfl
  | pipes => exact hsame rfl rfl

end BpTcpEngine

/-! ## The thread -/

/-- `poller_t`: its engines, `timers`, and what is left of the local copy in
`timer_event`. -/
structure IoThread (μ δ : Type) where
  engines : Nat → BpTcpEngine μ δ
  timers : List Nat
  firing : List Nat

/-- An event or a command for an engine, or a change to its pipes by another
thread; `timer_event` of the poller; and that of the next engine in the copy. -/
inductive IoThreadAct (μ δ : Type) where
  | handle (i : Nat) (act : EngineAct μ δ)
  | timerEvent
  | fire (env : EngineEnv)

namespace IoThread

variable {μ δ : Type}

def start (engines : Nat → BpTcpEngine μ δ) : IoThread μ δ :=
  { engines := engines, timers := [], firing := [] }

/-- The engine has called `add_timer` so many times. -/
def put (s : IoThread μ δ) (i : Nat) (e : BpTcpEngine μ δ) (added : Nat) :
    IoThread μ δ :=
  { s with
    engines := Function.update s.engines i e
    timers := s.timers ++ List.replicate added i }

/-- The thread does one thing at a time. -/
def free (s : IoThread μ δ) : EngineAct μ δ → Bool
  | .timer _ => false
  | .pipes _ _ => true
  | _ => s.firing.isEmpty

variable [Mux μ] [IDemux δ]

/-- A failed assertion stops its engine and not the thread: there are more runs
than the source has. -/
def step (s : IoThread μ δ) : IoThreadAct μ δ → Option (IoThread μ δ)
  | .handle i act =>
      if s.free act then
        ((s.engines i).step act).map fun e =>
          s.put i e (e.timers - (s.engines i).timers)
      else none
  | .timerEvent =>
      -- the wait has a limit only if there are timers
      if s.firing = [] ∧ s.timers ≠ [] then
        some { s with timers := [], firing := s.timers }
      else none
  | .fire env =>
      match s.firing with
      | [] => none
      | i :: rest =>
          let e := s.engines i
          let e' := BpTcpEngine.timerEvent env { e with timers := e.timers - 1 }
          if e.aborted then none
          else
            some { s.put i e' (e'.timers + 1 - e.timers) with firing := rest }

/-- Every `head` arrives where it does no harm. -/
def HeadSafe (s : IoThread μ δ) : IoThreadAct μ δ → Prop
  | .handle i act => (s.engines i).HeadSafe act
  | _ => True

/-- Each engine has gone through a run of its own, and has as many timers
pending as the thread has for it. -/
structure Inv (engines : Nat → BpTcpEngine μ δ) (s : IoThread μ δ) : Prop where
  runs : ∀ i, ∃ acts, Run BpTcpEngine.step BpTcpEngine.HeadSafe (engines i) acts
    (s.engines i)
  pending : ∀ i, (s.timers ++ s.firing).count i = (s.engines i).timers

variable {engines : Nat → BpTcpEngine μ δ} {s s' : IoThread μ δ}

theorem Inv.timed (hnew : ∀ i, (engines i).Created) (h : Inv engines s)
    (i : Nat) : (s.engines i).SafeInv ∧ (s.engines i).Timed 0 := by
  obtain ⟨acts, hrun⟩ := h.runs i
  refine hrun.invariant (I := fun e => e.SafeInv ∧ e.Timed 0) ?_
    ⟨.created (hnew i), (BpTcpEngine.Timed.created (hnew i)).2⟩
  rintro e act e' ⟨hsafe, htimed⟩ hok hs
  exact ⟨hsafe.step hok hs, (htimed.step hsafe hok hs).1⟩

/-- Engine `i` takes a step, and the timers it asks for are added. -/
theorem Inv.put (hnew : ∀ i, (engines i).Created) (h : Inv engines s) {i : Nat}
    {a : EngineAct μ δ} {e : BpTcpEngine μ δ} {l : List Nat}
    (hok : (s.engines i).HeadSafe a) (hs : (s.engines i).step a = some e)
    (hfiring : s.firing = List.replicate a.fired i ++ l) :
    Inv engines { s.put i e (e.timers + a.fired - (s.engines i).timers) with
      firing := l } where
  runs j := by
    by_cases hj : j = i
    · subst hj
      obtain ⟨acts, hrun⟩ := h.runs j
      exact ⟨acts ++ [a], by simpa [IoThread.put] using hrun.snoc hok hs⟩
    · simpa [IoThread.put, hj] using h.runs j
  pending j := by
    have hold := h.pending j
    have hle := (((h.timed hnew i).2).step (h.timed hnew i).1 hok hs).2
    rw [hfiring] at hold
    by_cases hj : j = i
    · subst hj
      simp only [IoThread.put, List.count_append, List.count_replicate_self,
        Function.update_self] at hold ⊢
      omega
    · simpa [IoThread.put, hj, List.count_replicate, Ne.symm hj] using hold

theorem Inv.step (hnew : ∀ i, (engines i).Created) (h : Inv engines s)
    {act : IoThreadAct μ δ} (hok : s.HeadSafe act)
    (hs : s.step act = some s') : Inv engines s' := by
  cases act with
  | handle i act =>
      obtain ⟨hfree, hs⟩ := Option.ite_none_right_eq_some.mp hs
      obtain ⟨e, he, rfl⟩ := Option.map_eq_some_iff.mp hs
      have hfired : act.fired = 0 := by
        cases act with
        | timer env => cases hfree
        | _ => rfl
      have hput := h.put hnew (l := s.firing) hok he (by simp [hfired])
      rwa [hfired] at hput
  | timerEvent =>
      obtain ⟨⟨hidle, _⟩, hs⟩ := Option.ite_none_right_eq_some.mp hs
      cases hs
      refine ⟨h.runs, fun i => ?_⟩
      simpa [hidle] using h.pending i
  | fire env =>
      cases hfiring : s.firing with
      | nil => simp [IoThread.step, hfiring] at hs
      | cons i rest =>
          simp only [IoThread.step, hfiring] at hs
          obtain ⟨haborted, hs⟩ := Option.ite_none_left_eq_some.mp hs
          cases hs
          have hpending : (s.engines i).timers ≠ 0 := by
            simp [← h.pending i, hfiring]
          refine h.put hnew (a := .timer env) trivial ?_ hfiring
          rw [BpTcpEngine.step, if_neg haborted]
          exact if_neg hpending

end IoThread

/-- Whatever the engines of a thread do and whenever the wait runs out of time,
each engine goes through a run of its own, and the vector and the copy hold the
engines that wait to reconnect, each of them once.  So `timer_event` finds every
engine it calls waiting, and the next round has every engine that waits. -/
theorem timers_exact {μ δ : Type} [Mux μ] [IDemux δ]
    {engines : Nat → BpTcpEngine μ δ} (hnew : ∀ i, (engines i).Created)
    {acts : List (IoThreadAct μ δ)} {s : IoThread μ δ}
    (h : Run IoThread.step IoThread.HeadSafe (.start engines) acts s) (i : Nat) :
    (∃ as, Run BpTcpEngine.step BpTcpEngine.HeadSafe (engines i) as
      (s.engines i)) ∧
    ((s.engines i).aborted = false → (s.timers ++ s.firing).count i =
      if (s.engines i).state = .waitingForReconnect then 1 else 0) := by
  have hinv : IoThread.Inv engines s :=
    h.invariant (fun _ _ _ hI hok hs => hI.step hnew hok hs)
      { runs := fun i => ⟨[], .nil _⟩
        pending := fun i => (BpTcpEngine.Timed.created (hnew i)).1.symm }
  refine ⟨hinv.runs i, fun haborted => ?_⟩
  have htimed := (hinv.timed hnew i).2
  rw [hinv.pending i]
  simpa [BpTcpEngine.Timed, haborted] using htimed

/-- An engine without a connection registers and fails again when its timer goes
off. -/
theorem timers_exact_retry :
    ∃ s : IoThread (List Message) Nat,
      Run IoThread.step IoThread.HeadSafe
        (.start fun _ => .connecter 8 8 [] 0 none 0)
        [.handle 0 (.register BpTcpEngine.broken), .timerEvent,
          .fire BpTcpEngine.broken] s ∧
      (s.timers ++ s.firing).count 0 = 1 ∧
      (s.timers ++ s.firing).count 1 = 0 := by
  have hrun : Run IoThread.step IoThread.HeadSafe
      (.start fun _ => BpTcpEngine.connecter 8 8 ([] : List Message) 0 none 0)
      [.handle 0 (.register BpTcpEngine.broken), .timerEvent,
        .fire BpTcpEngine.broken] _ :=
    .cons trivial rfl (.cons trivial rfl (.cons trivial rfl (.nil _)))
  have hexact := timers_exact (fun _ => .connecter 8 8 [] 0 none 0) hrun
  exact ⟨_, hrun, (hexact 0).2 rfl, (hexact 1).2 rfl⟩

end ZeroMQ
