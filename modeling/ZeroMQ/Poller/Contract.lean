import Mathlib.Data.List.Induction
import ZeroMQ.Lib.Run

/-!
# The rounds of a poller

The I/O threads are instances of `poller_t <T>`, where the event monitor `T`
wraps a system call such as `select`, `poll` or the ioctl of `/dev/poll`.  A
round of the thread is one call of `T::process_events`: it waits for the
operating system to report events and calls the engines concerned, entry by
entry.  An engine is free to remove descriptors and to add others while it is
called, its own included, and a descriptor that is closed may come back at once
with another owner.

All monitors go through their entries in the same way, so the loop is stated
once (`Monitor`, `RoundSys`), over what the monitors do differently.  What they
are for is stated by a `Ledger`, which knows the registrations and nothing of
any implementation.

## Main definitions

* `Prompt` — every callback goes to an engine that has been registered for the
  descriptor ever since the event was reported.
* `Ledger` — the registrations, and those that have lasted since the last
  report.
* `Monitor`, `RoundSys.step` — an event monitor, and its rounds.
* `Monitor.Simulates` — the monitor calls back only those the ledger lists.

## Main results

* `Ledger.mem_eligible` — what the ledger lists, in terms of the history.
* `Monitor.Simulates.prompt` — a monitor that keeps to the ledger is prompt.
-/

namespace ZeroMQ

open ZeroMQ.Lib

/-- `event_t`. -/
inductive Event where
  | eventIn
  | eventOut
  | eventErr
  deriving DecidableEq, Repr

/-- The calls of an engine to the poller.  Engines are given by numbers, and a
handle is the descriptor. -/
inductive MonitorCall where
  | addFd (fd engine : Nat)
  | rmFd (fd : Nat)
  | setPollin (fd : Nat)
  | resetPollin (fd : Nat)
  | setPollout (fd : Nat)
  | resetPollout (fd : Nat)
  deriving DecidableEq, Repr

/-- The history of a poller. -/
inductive MonitorEntry where
  | call (call : MonitorCall)
  | reported (events : List (Nat × Event))
  | callback (fd engine : Nat) (event : Event)
  deriving DecidableEq, Repr

variable {log : List MonitorEntry} {fd engine : Nat}

/-! ## The contract -/

/-- At the end of `log` the engine is registered for the descriptor. -/
def Registered (log : List MonitorEntry) (fd engine : Nat) : Prop :=
  ∃ before since, log = before ++ .call (.addFd fd engine) :: since ∧
    .call (.rmFd fd) ∉ since

/-- At the end of `log` the engine has been registered for the descriptor ever
since the last report, whose events are `events`: it was registered then, and
the descriptor has neither been removed since nor added. -/
def Lasted (log : List MonitorEntry) (fd engine : Nat)
    (events : List (Nat × Event)) : Prop :=
  ∃ before since, log = before ++ .reported events :: since ∧
    (∀ events', .reported events' ∉ since) ∧ Registered before fd engine ∧
    .call (.rmFd fd) ∉ since ∧ ∀ engine', .call (.addFd fd engine') ∉ since

/-- Every callback is about an event of the last report, and goes to an engine
that has been registered for the descriptor ever since. -/
def Prompt (log : List MonitorEntry) : Prop :=
  ∀ past future fd engine event,
    log = past ++ .callback fd engine event :: future →
    ∃ events, (fd, event) ∈ events ∧ Lasted past fd engine events

/-- An entry that does not remove the descriptor leaves it registered. -/
theorem Registered.concat (h : Registered log fd engine) {entry : MonitorEntry}
    (hne : .call (.rmFd fd) ≠ entry) :
    Registered (log ++ [entry]) fd engine := by
  obtain ⟨before, since, rfl, hnot⟩ := h
  refine ⟨before, since ++ [entry], by simp, ?_⟩
  intro hmem
  rcases List.mem_append.mp hmem with hold | hnew
  · exact hnot hold
  · exact hne (List.mem_singleton.mp hnew)

/-- So does one that neither removes nor adds it, and is no report, leave an
engine where it has been since the report. -/
theorem Lasted.concat {events : List (Nat × Event)}
    (h : Lasted log fd engine events) {entry : MonitorEntry}
    (hreport : ∀ events', .reported events' ≠ entry)
    (hrm : .call (.rmFd fd) ≠ entry)
    (hadd : ∀ engine', .call (.addFd fd engine') ≠ entry) :
    Lasted (log ++ [entry]) fd engine events := by
  obtain ⟨before, since, rfl, hno, hreg, hnorm, hnoadd⟩ := h
  have hmem : ∀ e, e ∉ since → e ≠ entry → e ∉ since ++ [entry] := by
    intro e hnot hne h
    rcases List.mem_append.mp h with hold | hnew
    · exact hnot hold
    · exact hne (List.mem_singleton.mp hnew)
  exact ⟨before, since ++ [entry], by simp,
    fun events' => hmem _ (hno events') (hreport events'), hreg,
    hmem _ hnorm hrm, fun engine' => hmem _ (hnoadd engine') (hadd engine')⟩

/-- A descriptor that has just been added has not been there since the
report. -/
theorem not_lasted_addFd {fd engine engine' : Nat}
    {events : List (Nat × Event)} :
    ¬ Lasted (log ++ [.call (.addFd fd engine')]) fd engine events := by
  rintro ⟨before, since, heq, _, _, _, hadd⟩
  rcases List.eq_nil_or_concat since with rfl | ⟨since', last, rfl⟩
  · obtain ⟨_, hlast⟩ := List.append_inj' heq rfl
    cases hlast
  · rw [List.concat_eq_append, ← List.cons_append, ← List.append_assoc] at heq
    obtain ⟨_, hlast⟩ := List.append_inj' heq rfl
    refine hadd engine' ?_
    rw [List.concat_eq_append, ← hlast]
    exact List.mem_append_right _ (List.mem_singleton.mpr rfl)

/-! ## The ledger -/

/-- The pairs of a descriptor and its engine that are registered, those that
have been so since the last report, and the events of that report. -/
structure Ledger where
  registered : List (Nat × Nat)
  eligible : List (Nat × Nat)
  reported : List (Nat × Event)
  deriving DecidableEq, Repr

namespace Ledger

def start : Ledger := { registered := [], eligible := [], reported := [] }

/-- The pairs that are not about `fd`. -/
def without (fd : Nat) (pairs : List (Nat × Nat)) : List (Nat × Nat) :=
  pairs.filter fun p => p.1 ≠ fd

@[simp] theorem mem_without {fd : Nat} {pairs : List (Nat × Nat)}
    {p : Nat × Nat} : p ∈ without fd pairs ↔ p ∈ pairs ∧ p.1 ≠ fd := by
  simp [without]

/-- What a call, a report or a callback does to it. -/
def next (l : Ledger) : MonitorEntry → Ledger
  | .call (.addFd fd engine) =>
      { l with
        registered := l.registered ++ [(fd, engine)]
        eligible := without fd l.eligible }
  | .call (.rmFd fd) =>
      { l with
        registered := without fd l.registered
        eligible := without fd l.eligible }
  | .reported events =>
      { l with eligible := l.registered, reported := events }
  | _ => l

/-- The ledger of a history. -/
def ofLog (log : List MonitorEntry) : Ledger := log.foldl next start

@[simp] theorem ofLog_concat (log : List MonitorEntry) (entry : MonitorEntry) :
    ofLog (log ++ [entry]) = (ofLog log).next entry := by
  simp [ofLog]

theorem eligible_subset (log : List MonitorEntry) :
    ∀ p ∈ (ofLog log).eligible, p ∈ (ofLog log).registered := by
  induction log using List.reverseRecOn with
  | nil => exact fun p hp => hp
  | append_singleton log entry ih =>
      rw [ofLog_concat]
      intro p hp
      cases entry with
      | call c =>
          cases c with
          | addFd fd engine =>
              exact List.mem_append_left _ (ih p (mem_without.mp hp).1)
          | rmFd fd =>
              have hp := mem_without.mp hp
              exact mem_without.mpr ⟨ih p hp.1, hp.2⟩
          | setPollin | resetPollin | setPollout | resetPollout => exact ih p hp
      | reported events => exact hp
      | callback fd engine event => exact ih p hp


theorem mem_registered (h : (fd, engine) ∈ (ofLog log).registered) :
    Registered log fd engine := by
  induction log using List.reverseRecOn with
  | nil => cases h
  | append_singleton log entry ih =>
      rw [ofLog_concat] at h
      cases entry with
      | call c =>
          cases c with
          | addFd fd' engine' =>
              rcases List.mem_append.mp h with hold | hnew
              · exact (ih hold).concat nofun
              · cases List.mem_singleton.mp hnew
                exact ⟨log, [], rfl, List.not_mem_nil⟩
          | rmFd fd' =>
              obtain ⟨hold, hne⟩ := mem_without.mp h
              refine (ih hold).concat ?_
              rintro ⟨⟩
              exact hne rfl
          | setPollin | resetPollin | setPollout | resetPollout =>
              exact (ih h).concat nofun
      | reported events => exact (ih h).concat nofun
      | callback fd' engine' event => exact (ih h).concat nofun

theorem mem_eligible (h : (fd, engine) ∈ (ofLog log).eligible) :
    Lasted log fd engine (ofLog log).reported := by
  induction log using List.reverseRecOn with
  | nil => cases h
  | append_singleton log entry ih =>
      rw [ofLog_concat] at h ⊢
      cases entry with
      | call c =>
          cases c with
          | addFd fd' engine' =>
              obtain ⟨hold, hne⟩ := mem_without.mp h
              refine (ih hold).concat nofun nofun ?_
              rintro _ ⟨⟩
              exact hne rfl
          | rmFd fd' =>
              obtain ⟨hold, hne⟩ := mem_without.mp h
              refine (ih hold).concat nofun ?_ nofun
              rintro ⟨⟩
              exact hne rfl
          | setPollin | resetPollin | setPollout | resetPollout =>
              exact (ih h).concat nofun nofun nofun
      | reported events =>
          exact ⟨log, [], rfl, fun _ => List.not_mem_nil, mem_registered h,
            List.not_mem_nil, fun _ => List.not_mem_nil⟩
      | callback fd' engine' event => exact (ih h).concat nofun nofun nofun

end Ledger

/-! ## Event monitors -/

/-- The variables of one turn of the loop in `process_events`: the descriptor,
unless it is `retired_fd`, and the engine. -/
structure LoopVars where
  fd : Option Nat
  engine : Nat
  deriving DecidableEq, Repr

/-- The outcome of waiting for events: the monitor, the events reported, and
whether the system call has returned 0. -/
structure Wait (σ : Type) where
  monitor : σ
  events : List (Nat × Event)
  timeout : Bool

/-- What the event monitors do differently.  `ρ` is what the operating system
answers, `order` the order in which the events of an entry are looked at; `none`
is a failed assertion. -/
structure Monitor (σ ρ : Type) where
  start : σ
  call : σ → MonitorCall → Option σ
  wait : σ → ρ → Wait σ
  size : σ → Nat
  load : σ → Nat → Option LoopVars
  order : List Event
  alive : σ → Nat → LoopVars → Bool
  ready : σ → Nat → LoopVars → Event → Bool
  engine : σ → Nat → LoopVars → Nat
  finish : σ → σ

/-- The position of a thread: between two rounds, at the beginning of a turn of
the loop, or inside one with the events still to be looked at. -/
inductive Cursor where
  | outside
  | turn (i : Nat)
  | testing (i : Nat) (vars : LoopVars) (todo : List Event)
  deriving DecidableEq, Repr

/-- A poller; `handling` says that an engine is being called. -/
structure RoundSys (σ : Type) where
  monitor : σ
  cursor : Cursor
  handling : Bool
  stopped : Bool
  log : List MonitorEntry

/-- A call to the poller, by the engine being called or (between two rounds) by
a timer event or the constructor; the begin of a round; a step of its loop; and
the return of the engine called, with the result of `process_event`. -/
inductive RoundAct (ρ : Type) where
  | call (call : MonitorCall)
  | wait (answer : ρ)
  | advance
  | back (stop : Bool)
  deriving DecidableEq, Repr

namespace RoundSys

variable {σ ρ : Type}

def start (m : Monitor σ ρ) : RoundSys σ :=
  { monitor := m.start, cursor := .outside, handling := false, stopped := false,
    log := [] }

/-- `add_fd`, `rm_fd` and the like. -/
def call (m : Monitor σ ρ) (s : RoundSys σ) (c : MonitorCall) :
    Option (RoundSys σ) :=
  (m.call s.monitor c).map fun monitor =>
    { s with monitor := monitor, log := s.log ++ [.call c] }

/-- Wait for events.  When there are none it is the time for timers, and the
round is over. -/
def wait (m : Monitor σ ρ) (s : RoundSys σ) (answer : ρ) : RoundSys σ :=
  let w := m.wait s.monitor answer
  { s with
    monitor := w.monitor
    cursor := if w.timeout then .outside else .turn 0
    log := s.log ++ [.reported w.events] }

/-- One step of the loop: the begin of a turn, or one event of an entry. -/
def advance (m : Monitor σ ρ) (s : RoundSys σ) : Option (RoundSys σ) :=
  match s.cursor with
  | .outside => none
  | .turn i =>
      if i < m.size s.monitor then
        (m.load s.monitor i).map fun vars =>
          { s with cursor := .testing i vars m.order }
      else some { s with monitor := m.finish s.monitor, cursor := .outside }
  | .testing i vars todo =>
      match vars.fd, todo with
      | some fd, event :: todo =>
          if m.alive s.monitor i vars then
            if m.ready s.monitor i vars event then
              some
                { s with
                  cursor := .testing i vars todo
                  handling := true
                  log := s.log ++
                    [.callback fd (m.engine s.monitor i vars) event] }
            else some { s with cursor := .testing i vars todo }
          else some { s with cursor := .turn (i + 1) }
      | _, _ => some { s with cursor := .turn (i + 1) }

def step (m : Monitor σ ρ) (s : RoundSys σ) (act : RoundAct ρ) :
    Option (RoundSys σ) :=
  if s.stopped then none
  else
    match act with
    | .call c =>
        if s.cursor = .outside ∨ s.handling then s.call m c else none
    | .wait answer =>
        if s.cursor = .outside then some (s.wait m answer) else none
    | .advance => if s.handling then none else s.advance m
    | .back stop =>
        if s.handling then some { s with handling := false, stopped := stop }
        else none

end RoundSys

/-! ## Keeping to the ledger -/

/-- A monitor in a state related by `R` to the ledger calls back only those the
ledger lists; `C` is what it remembers of an entry while it looks at its
events.  `ok` is what the monitor asks of its callers. -/
structure Monitor.Simulates {σ ρ : Type} (m : Monitor σ ρ)
    (ok : σ → MonitorCall → Prop) (R : σ → Ledger → Prop)
    (C : σ → Nat → LoopVars → Prop) : Prop where
  start : R m.start Ledger.start
  call : ∀ {s s' l c}, R s l → (∀ p ∈ l.eligible, p ∈ l.registered) →
    ok s c → m.call s c = some s' → R s' (l.next (.call c))
  keep : ∀ {s s' l c i vars}, R s l → ok s c → m.call s c = some s' →
    C s i vars → C s' i vars
  wait : ∀ {s l} answer, R s l →
    R (m.wait s answer).monitor (l.next (.reported (m.wait s answer).events))
  load : ∀ {s l i vars}, R s l → m.load s i = some vars → C s i vars
  callback : ∀ {s l i vars fd event}, R s l →
    (∀ p ∈ l.eligible, p ∈ l.registered) → C s i vars → vars.fd = some fd →
    m.alive s i vars = true → m.ready s i vars event = true →
    (fd, m.engine s i vars) ∈ l.eligible ∧ (fd, event) ∈ l.reported
  finish : ∀ {s l}, R s l → R (m.finish s) l

theorem Prompt.nil : Prompt [] := by
  intro past future fd engine event h
  simp at h

/-- A history is extended by an entry that is no callback, or by one to an
engine the ledger lists. -/
theorem Prompt.concat (h : Prompt log) {entry : MonitorEntry}
    (hentry : ∀ fd engine event, entry = .callback fd engine event →
      (fd, engine) ∈ (Ledger.ofLog log).eligible ∧
        (fd, event) ∈ (Ledger.ofLog log).reported) :
    Prompt (log ++ [entry]) := by
  intro past future fd engine event heq
  rcases List.eq_nil_or_concat future with rfl | ⟨future', last, rfl⟩
  · obtain ⟨rfl, hlast⟩ := List.append_inj' heq rfl
    obtain ⟨hel, hev⟩ := hentry fd engine event (List.singleton_inj.mp hlast)
    exact ⟨_, hev, Ledger.mem_eligible hel⟩
  · rw [List.concat_eq_append, ← List.cons_append, ← List.append_assoc] at heq
    obtain ⟨rfl, _⟩ := List.append_inj' heq rfl
    exact h past future' fd engine event rfl

namespace RoundSys

variable {σ ρ : Type} {m : Monitor σ ρ} {ok : σ → MonitorCall → Prop}
  {R : σ → Ledger → Prop} {C : σ → Nat → LoopVars → Prop}

/-- The callers do what the monitor asks of them. -/
def Calls (ok : σ → MonitorCall → Prop) (s : RoundSys σ) : RoundAct ρ → Prop
  | .call c => ok s.monitor c
  | _ => True

instance [∀ s c, Decidable (ok s c)] (s : RoundSys σ) (act : RoundAct ρ) :
    Decidable (s.Calls ok act) :=
  match act with
  | .call c => inferInstanceAs (Decidable (ok s.monitor c))
  | .wait _ | .advance | .back _ => .isTrue trivial

theorem calls_any (s : RoundSys σ) (act : RoundAct ρ) (_ : Any s act) :
    s.Calls Any act := by
  cases act <;> trivial

/-- The monitor keeps to the ledger of the history, remembers the entry it is
looking at, and has been prompt so far. -/
structure Inv (R : σ → Ledger → Prop) (C : σ → Nat → LoopVars → Prop)
    (s : RoundSys σ) : Prop where
  related : R s.monitor (Ledger.ofLog s.log)
  current : ∀ i vars todo, s.cursor = .testing i vars todo →
    C s.monitor i vars
  prompt : Prompt s.log

theorem Inv.advance (hsim : m.Simulates ok R C) {s s' : RoundSys σ}
    (h : Inv R C s) (hstep : s.advance m = some s') : Inv R C s' := by
  unfold RoundSys.advance at hstep
  split at hstep
  · cases hstep
  · next i hcursor =>
      split at hstep
      · obtain ⟨vars, hload, rfl⟩ := Option.map_eq_some_iff.mp hstep
        refine { h with current := ?_ }
        rintro _ _ _ ⟨⟩
        exact hsim.load h.related hload
      · cases hstep
        exact
          { related := hsim.finish h.related
            current := nofun
            prompt := h.prompt }
  · next i vars todo hcursor =>
      have hvars := h.current i vars todo hcursor
      split at hstep
      · next fd event todo' hfd =>
          split at hstep
          · next halive =>
              split at hstep
              · next hready =>
                  cases hstep
                  have hcallback := hsim.callback h.related
                    (Ledger.eligible_subset _) hvars hfd halive hready
                  exact
                    { related := by
                        rw [Ledger.ofLog_concat]
                        exact h.related
                      current := by
                        rintro _ _ _ ⟨⟩
                        exact hvars
                      prompt := by
                        apply h.prompt.concat
                        rintro _ _ _ ⟨⟩
                        exact hcallback }
              · cases hstep
                refine { h with current := ?_ }
                rintro _ _ _ ⟨⟩
                exact hvars
          · cases hstep
            exact { h with current := nofun }
      · cases hstep
        exact { h with current := nofun }

theorem Inv.step (hsim : m.Simulates ok R C) {s s' : RoundSys σ}
    {act : RoundAct ρ} (h : Inv R C s) (hok : s.Calls ok act)
    (hstep : s.step m act = some s') : Inv R C s' := by
  unfold RoundSys.step at hstep
  split at hstep
  · cases hstep
  · cases act with
    | call c =>
        obtain ⟨_, hstep⟩ := Option.ite_none_right_eq_some.mp hstep
        obtain ⟨monitor, hcall, rfl⟩ := Option.map_eq_some_iff.mp hstep
        exact
          { related := by
              rw [Ledger.ofLog_concat]
              exact hsim.call h.related (Ledger.eligible_subset _) hok hcall
            current := fun i vars todo hcursor =>
              hsim.keep h.related hok hcall (h.current i vars todo hcursor)
            prompt := h.prompt.concat nofun }
    | wait answer =>
        obtain ⟨_, hstep⟩ := Option.ite_none_right_eq_some.mp hstep
        cases hstep
        exact
          { related := by
              simp only [RoundSys.wait, Ledger.ofLog_concat]
              exact hsim.wait answer h.related
            current := by
              intro i vars todo hcursor
              simp only [RoundSys.wait] at hcursor
              split at hcursor <;> cases hcursor
            prompt := h.prompt.concat nofun }
    | advance =>
        obtain ⟨_, hstep⟩ := Option.ite_none_left_eq_some.mp hstep
        exact h.advance hsim hstep
    | back stop =>
        obtain ⟨_, hstep⟩ := Option.ite_none_right_eq_some.mp hstep
        cases hstep
        exact { h with }

end RoundSys

/-- Rounds of a monitor that keeps to the ledger, whatever is reported and
whatever the engines do. -/
theorem Monitor.Simulates.prompt {σ ρ : Type} {m : Monitor σ ρ}
    {ok : σ → MonitorCall → Prop} {R : σ → Ledger → Prop}
    {C : σ → Nat → LoopVars → Prop} (hsim : m.Simulates ok R C)
    {acts : List (RoundAct ρ)} {s : RoundSys σ}
    (h : Run (RoundSys.step m) (RoundSys.Calls ok) (RoundSys.start m) acts s) :
    Prompt s.log := by
  have hinv : RoundSys.Inv R C s :=
    h.invariant (fun _ _ _ hI hok hstep => RoundSys.Inv.step hsim hI hok hstep)
      { related := hsim.start
        current := nofun
        prompt := .nil }
  exact hinv.prompt

end ZeroMQ
