import Mathlib.Data.Nat.Init
import Mathlib.Logic.Function.Basic
import ZeroMQ.Poller.Contract

/-!
# `select_t`, `poll_t` and `devpoll_t`

Three event monitors keep stale events from the new owner of a descriptor by
three devices.  `select_t` clears the descriptor in the sets of results when it
is removed.  `poll_t` appends an entry without results when it is added.
`devpoll_t` marks it as not yet adopted until the next round.

The latter two assert that a descriptor is added only when it is not registered;
`select_t` does not, and depends on it.

## Main definitions

* `Select.monitor`, `Poll.monitor`, `DevPoll.monitor` — the monitors of
  `libzmq/select_thread.cpp`, `poll_thread.cpp` and `devpoll_thread.cpp`.

## Main results

* `Select.simulates`, `Poll.simulates`, `DevPoll.simulates` — each keeps to the
  ledger.
* `no_stale_events` — no event is delivered to an engine that has not been
  registered since it was reported.
* `stale_event_select` — unless a descriptor is added twice to `select_t`.
-/

namespace ZeroMQ

open ZeroMQ.Lib

variable {fd : Nat} {i : Nat} {engine : Nat} {c : MonitorCall} {vars : LoopVars}

/-- The entries in use, which are those with a descriptor, have different ones. -/
def DistinctFds {α : Type} (fd : α → Option Nat) (entries : List α) : Prop :=
  entries.Pairwise fun p q => fd p ≠ none → fd p ≠ fd q

theorem DistinctFds.unique {α : Type} {fd : α → Option Nat} {entries : List α}
    (h : DistinctFds fd entries) {p q : α} (hp : p ∈ entries)
    (hq : q ∈ entries) (hne : fd p ≠ none) (heq : fd p = fd q) : p = q := by
  induction entries with
  | nil => cases hp
  | cons e es ih =>
      obtain ⟨hfirst, hrest⟩ := List.pairwise_cons.mp h
      rcases List.mem_cons.mp hp with rfl | hp'
      · rcases List.mem_cons.mp hq with rfl | hq'
        · rfl
        · exact (hfirst q hq' hne heq).elim
      · rcases List.mem_cons.mp hq with rfl | hq'
        · exact (hfirst p hp' (heq ▸ hne) heq.symm).elim
        · exact ih hrest hp' hq'

/-! ## `select_t` -/

/-- `fd_entry_t` of `select_t`; `none` is `retired_fd`. -/
structure FdEntry where
  fd : Option Nat
  engine : Nat
  deriving DecidableEq, Repr

/-- An `fd_set`. -/
abbrev FdSet := Nat → Bool

namespace FdSet

/-- `FD_SET`. -/
def insert (s : FdSet) (fd : Nat) : FdSet := Function.update s fd true

/-- `FD_CLR`. -/
def clear (s : FdSet) (fd : Nat) : FdSet := Function.update s fd false

theorem insert_eq_true {s : FdSet} {x : Nat} :
    s.insert fd x = true ↔ x = fd ∨ s x = true := by
  unfold insert Function.update
  split
  · next h => simp [h]
  · next h => simp [h]

theorem clear_eq_true {s : FdSet} {x : Nat} :
    s.clear fd x = true ↔ x ≠ fd ∧ s x = true := by
  unfold clear Function.update
  split
  · next h => simp [h]
  · next h => simp [h]

end FdSet

/-- `select_t`. -/
structure Select where
  fds : List FdEntry
  sourceIn : FdSet
  sourceOut : FdSet
  sourceErr : FdSet
  readfds : FdSet
  writefds : FdSet
  exceptfds : FdSet
  maxfd : Int
  retired : Bool

namespace Select

/-- The highest descriptor in the list, or 0. -/
def highest (fds : List FdEntry) : Int :=
  fds.foldl (fun m e => match e.fd with
    | some fd => max m fd
    | none => m) 0

/-- Mark the first entry of the descriptor as retired. -/
def retire (fd : Nat) : List FdEntry → Option (List FdEntry)
  | [] => none
  | e :: es =>
      if e.fd = some fd then some ({ e with fd := none } :: es)
      else (retire fd es).map fun es => e :: es

/-- `select_t::add_fd`. -/
def addFd (s : Select) (fd engine : Nat) : Select :=
  { s with
    fds := s.fds ++ [⟨some fd, engine⟩]
    sourceErr := s.sourceErr.insert fd
    maxfd := if s.maxfd < fd then fd else s.maxfd }

/-- `select_t::rm_fd`. -/
def rmFd (s : Select) (fd : Nat) : Option Select :=
  (retire fd s.fds).map fun fds =>
    { fds := fds
      sourceIn := s.sourceIn.clear fd
      sourceOut := s.sourceOut.clear fd
      sourceErr := s.sourceErr.clear fd
      readfds := s.readfds.clear fd
      writefds := s.writefds.clear fd
      exceptfds := s.exceptfds.clear fd
      maxfd := if (fd : Int) = s.maxfd then highest s.fds else s.maxfd
      retired := true }

def call (s : Select) : MonitorCall → Option Select
  | .addFd fd engine => some (s.addFd fd engine)
  | .rmFd fd => s.rmFd fd
  | .setPollin fd => some { s with sourceIn := s.sourceIn.insert fd }
  | .resetPollin fd => some { s with sourceIn := s.sourceIn.clear fd }
  | .setPollout fd => some { s with sourceOut := s.sourceOut.insert fd }
  | .resetPollout fd => some { s with sourceOut := s.sourceOut.clear fd }

/-- The set of results for an event. -/
def results (s : Select) : Event → FdSet
  | .eventIn => s.readfds
  | .eventOut => s.writefds
  | .eventErr => s.exceptfds

/-- The set the results of an event are taken from. -/
def source (s : Select) : Event → FdSet
  | .eventIn => s.sourceIn
  | .eventOut => s.sourceOut
  | .eventErr => s.sourceErr

/-- The call of `select`, which leaves the descriptors with events of those in
the source sets. -/
def wait (s : Select) (answer : List (Nat × Event)) : Wait Select :=
  let events := answer.filter fun p => s.source p.2 p.1
  let result (event : Event) : FdSet := fun fd => (fd, event) ∈ events
  { monitor :=
      { s with
        readfds := result .eventIn
        writefds := result .eventOut
        exceptfds := result .eventErr }
    events := events
    timeout := events.isEmpty }

/-- Destroy retired event sources. -/
def finish (s : Select) : Select :=
  if s.retired then
    { s with fds := s.fds.filter fun e => e.fd ≠ none, retired := false }
  else s

/-- `select_t`.  The sets of results are not read before they are written, and
are taken to be empty at the start. -/
def monitor : Monitor Select (List (Nat × Event)) where
  start :=
    { fds := [], sourceIn := fun _ => false, sourceOut := fun _ => false,
      sourceErr := fun _ => false, readfds := fun _ => false,
      writefds := fun _ => false, exceptfds := fun _ => false, maxfd := -1,
      retired := false }
  call := call
  wait := wait
  size s := s.fds.length
  load s i := s.fds[i]?.map fun e => ⟨e.fd, e.engine⟩
  order := [.eventOut, .eventIn, .eventErr]
  alive s i _ := s.fds[i]?.any fun e => e.fd ≠ none
  ready s i _ event := s.fds[i]?.any fun e => e.fd.any fun fd =>
    s.results event fd
  engine s i vars := (s.fds[i]?.map fun e => e.engine).getD vars.engine
  finish := finish

/-- What `select_t` needs of its callers: a descriptor is added when it is not
registered, and polled while it is. -/
def Proper (s : Select) : MonitorCall → Prop
  | .addFd fd _ => ∀ e ∈ s.fds, e.fd ≠ some fd
  | .setPollin fd => ∃ e ∈ s.fds, e.fd = some fd
  | .setPollout fd => ∃ e ∈ s.fds, e.fd = some fd
  | _ => True

instance (s : Select) (c : MonitorCall) : Decidable (s.Proper c) :=
  match c with
  | .addFd fd _ => inferInstanceAs (Decidable (∀ e ∈ s.fds, e.fd ≠ some fd))
  | .setPollin fd => inferInstanceAs (Decidable (∃ e ∈ s.fds, e.fd = some fd))
  | .setPollout fd => inferInstanceAs (Decidable (∃ e ∈ s.fds, e.fd = some fd))
  | .rmFd _ | .resetPollin _ | .resetPollout _ => .isTrue trivial

/-- The entry of the descriptor is gone, and it only. -/
theorem retire_spec {fds fds' : List FdEntry} (h : DistinctFds FdEntry.fd fds)
    (hr : retire fd fds = some fds') :
    (∀ x engine, ⟨some x, engine⟩ ∈ fds' ↔ ⟨some x, engine⟩ ∈ fds ∧ x ≠ fd) ∧
      DistinctFds FdEntry.fd fds' := by
  induction fds generalizing fds' with
  | nil => cases hr
  | cons e es ih =>
      obtain ⟨hfirst, hrest⟩ := List.pairwise_cons.mp h
      unfold retire at hr
      split at hr
      · next he =>
          cases hr
          refine ⟨fun x engine => ?_, List.pairwise_cons.mpr ⟨?_, hrest⟩⟩
          · have hother : ⟨some x, engine⟩ ∈ es → x ≠ fd := by
              rintro hmem rfl
              exact hfirst _ hmem (by simp [he]) he
            have hself : ⟨some x, engine⟩ = e → x = fd := by
              rintro rfl
              exact Option.some.inj he
            grind
          · exact fun q _ hnone => (hnone rfl).elim
      · next he =>
          obtain ⟨es', hes, rfl⟩ := Option.map_eq_some_iff.mp hr
          obtain ⟨hmem, hdistinct⟩ := ih hrest hes
          refine ⟨fun x engine => ?_, List.pairwise_cons.mpr ⟨?_, hdistinct⟩⟩
          · have hself : ⟨some x, engine⟩ = e → x ≠ fd := by
              rintro rfl rfl
              exact he rfl
            have := hmem x engine
            grind
          · rintro ⟨qfd, engine⟩ hq hne heq
            cases qfd with
            | none => exact hne heq
            | some x => exact hfirst _ ((hmem x engine).mp hq).1 hne heq

theorem retire_getElem? {fds fds' : List FdEntry} {e : FdEntry}
    (hr : retire fd fds = some fds') (he : fds[i]? = some e) :
    ∃ e', fds'[i]? = some e' ∧ (e'.fd ≠ none → e' = e) := by
  induction fds generalizing fds' i with
  | nil => cases hr
  | cons e₀ es ih =>
      unfold retire at hr
      split at hr
      · cases hr
        cases i with
        | zero => exact ⟨_, rfl, fun hne => (hne rfl).elim⟩
        | succ i => exact ⟨e, he, fun _ => rfl⟩
      · obtain ⟨es', hes, rfl⟩ := Option.map_eq_some_iff.mp hr
        cases i with
        | zero => exact ⟨e, he, fun _ => rfl⟩
        | succ i =>
            obtain ⟨e', he', hsame⟩ := ih hes he
            exact ⟨e', he', hsame⟩

/-- The entries are the registrations; the sources are among them, and the
results among those that have lasted. -/
structure Rel (s : Select) (l : Ledger) : Prop where
  entries : ∀ fd engine, (fd, engine) ∈ l.registered ↔ ⟨some fd, engine⟩ ∈ s.fds
  distinct : DistinctFds FdEntry.fd s.fds
  sources : ∀ event fd, s.source event fd = true →
    ∃ engine, (fd, engine) ∈ l.registered
  results : ∀ event fd, s.results event fd = true →
    (fd, event) ∈ l.reported ∧ ∃ engine, (fd, engine) ∈ l.eligible

/-- The entry is in its place and has, unless it is retired, the descriptor it
was loaded with. -/
def Current (s : Select) (i : Nat) (vars : LoopVars) : Prop :=
  ∃ e, s.fds[i]? = some e ∧ (e.fd ≠ none → e.fd = vars.fd)

variable {s s' : Select} {l : Ledger}

theorem Rel.addFd (h : Rel s l) (hsub : ∀ p ∈ l.eligible, p ∈ l.registered)
    (hok : s.Proper (.addFd fd engine)) :
    Rel (s.addFd fd engine) (l.next (.call (.addFd fd engine))) where
  entries x engine' := by
    simp only [Ledger.next, Select.addFd, List.mem_append, List.mem_singleton,
      h.entries, Prod.mk.injEq, FdEntry.mk.injEq, Option.some.injEq]
  distinct := by
    refine List.pairwise_append.mpr ⟨h.distinct, List.pairwise_singleton _ _, ?_⟩
    intro p hp q hq _ heq
    rw [List.mem_singleton.mp hq] at heq
    exact hok p hp heq
  sources event x hx := by
    have hold : s.source event x = true →
        ∃ engine', (x, engine') ∈ l.registered ++ [(fd, engine)] := by
      intro hx
      obtain ⟨engine', hreg⟩ := h.sources event x hx
      exact ⟨engine', List.mem_append_left _ hreg⟩
    cases event with
    | eventIn => exact hold hx
    | eventOut => exact hold hx
    | eventErr =>
        rcases FdSet.insert_eq_true.mp hx with rfl | hx
        · exact ⟨engine, List.mem_append_right _ (List.mem_singleton.mpr rfl)⟩
        · exact hold hx
  results event x hx := by
    obtain ⟨hev, engine', hel⟩ := h.results event x hx
    refine ⟨hev, engine', Ledger.mem_without.mpr ⟨hel, ?_⟩⟩
    rintro rfl
    exact hok _ ((h.entries _ _).mp (hsub _ hel)) rfl

theorem Rel.rmFd (h : Rel s l) (hs : s.rmFd fd = some s') :
    Rel s' (l.next (.call (.rmFd fd))) := by
  obtain ⟨fds, hfds, rfl⟩ := Option.map_eq_some_iff.mp hs
  obtain ⟨hmem, hdistinct⟩ := retire_spec h.distinct hfds
  refine
    { entries := fun x engine => ?_
      distinct := hdistinct
      sources := fun event x hx => ?_
      results := fun event x hx => ?_ }
  · exact Ledger.mem_without.trans
      ((and_congr_left' (h.entries x engine)).trans (hmem x engine).symm)
  · have hx' : x ≠ fd ∧ s.source event x = true := by
      cases event <;> exact FdSet.clear_eq_true.mp hx
    obtain ⟨engine, hreg⟩ := h.sources event x hx'.2
    exact ⟨engine, Ledger.mem_without.mpr ⟨hreg, hx'.1⟩⟩
  · have hx' : x ≠ fd ∧ s.results event x = true := by
      cases event <;> exact FdSet.clear_eq_true.mp hx
    obtain ⟨hev, engine, hel⟩ := h.results event x hx'.2
    exact ⟨hev, engine, Ledger.mem_without.mpr ⟨hel, hx'.1⟩⟩

/-- A change of the sources only. -/
theorem Rel.control (h : Rel s l) (hfds : s'.fds = s.fds)
    (hresults : s'.results = s.results)
    (hsources : ∀ event fd, s'.source event fd = true →
      s.source event fd = true ∨ ∃ e ∈ s.fds, e.fd = some fd) :
    Rel s' l where
  entries := by
    rw [hfds]
    exact h.entries
  distinct := by
    rw [hfds]
    exact h.distinct
  sources event fd hx := by
    rcases hsources event fd hx with hold | ⟨⟨_, engine⟩, he, rfl⟩
    · exact h.sources event fd hold
    · exact ⟨engine, (h.entries fd engine).mpr he⟩
  results := by
    rw [hresults]
    exact h.results

theorem Rel.call (h : Rel s l) (hsub : ∀ p ∈ l.eligible, p ∈ l.registered)
    (hok : s.Proper c) (hs : s.call c = some s') :
    Rel s' (l.next (.call c)) := by
  cases c with
  | addFd fd engine =>
      cases hs
      exact h.addFd hsub hok
  | rmFd fd => exact h.rmFd hs
  | setPollin fd | setPollout fd =>
      cases hs
      refine h.control rfl (funext fun event => by cases event <;> rfl) ?_
      intro event x hx
      have hx' : x = fd ∨ s.source event x = true := by
        cases event <;> first | exact FdSet.insert_eq_true.mp hx | exact .inr hx
      rcases hx' with rfl | hx
      · exact .inr hok
      · exact .inl hx
  | resetPollin fd | resetPollout fd =>
      cases hs
      refine h.control rfl (funext fun event => by cases event <;> rfl) ?_
      intro event x hx
      left
      cases event <;> first | exact (FdSet.clear_eq_true.mp hx).2 | exact hx

theorem Current.call (hs : s.call c = some s') (h : s.Current i vars) :
    s'.Current i vars := by
  obtain ⟨e, he, hvars⟩ := h
  cases c with
  | addFd fd engine =>
      cases hs
      have hlt : i < s.fds.length := (List.getElem?_eq_some_iff.mp he).1
      refine ⟨e, ?_, hvars⟩
      rw [show (s.addFd fd engine).fds = s.fds ++ [⟨some fd, engine⟩] from rfl,
        List.getElem?_append_left hlt, he]
  | rmFd fd =>
      obtain ⟨fds, hfds, rfl⟩ := Option.map_eq_some_iff.mp hs
      obtain ⟨e', he', hsame⟩ := retire_getElem? hfds he
      refine ⟨e', he', fun hne => ?_⟩
      obtain rfl := hsame hne
      exact hvars hne
  | setPollin fd | resetPollin fd | setPollout fd | resetPollout fd =>
      cases hs
      exact ⟨e, he, hvars⟩

theorem Rel.wait (h : Rel s l) (answer : List (Nat × Event)) :
    Rel (s.wait answer).monitor (l.next (.reported (s.wait answer).events)) where
  entries := h.entries
  distinct := h.distinct
  sources event fd hx := by
    apply h.sources event fd
    cases event <;> exact hx
  results event fd hx := by
    have hmem : (fd, event) ∈ answer.filter fun p => s.source p.2 p.1 := by
      cases event <;> exact of_decide_eq_true hx
    exact ⟨hmem, h.sources event fd (List.mem_filter.mp hmem).2⟩

theorem Rel.finish (h : Rel s l) : Rel s.finish l := by
  unfold Select.finish
  split
  · exact
      { entries := fun fd engine => by simp [h.entries]
        distinct := h.distinct.filter _
        sources := fun event fd hx =>
          h.sources event fd (by cases event <;> exact hx)
        results := fun event fd hx =>
          h.results event fd (by cases event <;> exact hx) }
  · exact h

/-- A result in the set of an entry belongs to the engine of the entry. -/
theorem Rel.callback (h : Rel s l) (hsub : ∀ p ∈ l.eligible, p ∈ l.registered)
    {event : Event} (hcur : s.Current i vars) (hfd : vars.fd = some fd)
    (halive : monitor.alive s i vars = true)
    (hready : monitor.ready s i vars event = true) :
    (fd, monitor.engine s i vars) ∈ l.eligible ∧ (fd, event) ∈ l.reported := by
  obtain ⟨e, he, hvars⟩ := hcur
  have hne : e.fd ≠ none := by simpa [monitor, he] using halive
  have hefd : e.fd = some fd := (hvars hne).trans hfd
  have hres : s.results event fd = true := by
    simpa [monitor, he, hefd] using hready
  obtain ⟨hev, engine, hel⟩ := h.results event fd hres
  have hentry := (h.entries fd engine).mp (hsub _ hel)
  have hsame := h.distinct.unique (List.mem_of_getElem? he) hentry hne hefd
  have hengine : monitor.engine s i vars = engine := by
    simp [monitor, he, hsame]
  rw [hengine]
  exact ⟨hel, hev⟩

theorem simulates : monitor.Simulates Proper Rel Current where
  start :=
    { entries := fun _ _ => by simp [Ledger.start, monitor]
      distinct := List.Pairwise.nil
      sources := fun event _ h => by cases event <;> cases h
      results := fun event _ h => by cases event <;> cases h }
  call h hsub hok hs := h.call hsub hok hs
  keep _ _ hs hcur := hcur.call hs
  wait answer h := h.wait answer
  load h hload := by
    obtain ⟨e, he, rfl⟩ := Option.map_eq_some_iff.mp hload
    exact ⟨e, he, fun _ => rfl⟩
  callback h hsub hcur hfd halive hready :=
    h.callback hsub hcur hfd halive hready
  finish h := h.finish

end Select

/-! ## The events of `poll` -/

/-- `revents`, with `POLLERR` and `POLLHUP` in one. -/
structure Revents where
  pollin : Bool
  pollout : Bool
  pollerr : Bool
  pollnval : Bool
  deriving DecidableEq, Repr

namespace Revents

def zero : Revents := ⟨false, false, false, false⟩

def has (r : Revents) : Event → Bool
  | .eventIn => r.pollin
  | .eventOut => r.pollout
  | .eventErr => r.pollerr

@[simp] theorem zero_has (event : Event) : zero.has event = false := by
  cases event <;> rfl

/-- The events of a descriptor. -/
def events (r : Revents) (fd : Nat) : List (Nat × Event) :=
  ([Event.eventIn, .eventOut, .eventErr].filter r.has).map fun event =>
    (fd, event)

theorem mem_events {r : Revents} {event : Event} (h : r.has event = true) :
    (fd, event) ∈ r.events fd := by
  refine List.mem_map.mpr ⟨event, List.mem_filter.mpr ⟨?_, h⟩, rfl⟩
  cases event <;> decide

end Revents

/-- The events asked for: `POLLIN` and `POLLOUT`. -/
structure PollMask where
  pollin : Bool
  pollout : Bool
  deriving DecidableEq, Repr

/-! ## `devpoll_t` -/

/-- `fd_entry_t` of `devpoll_t`. -/
structure DevPollEntry where
  events : PollMask
  engine : Nat
  inUse : Bool
  adopted : Bool
  deriving DecidableEq, Repr

/-- `devpoll_t`, with the buffer of `process_events`. -/
structure DevPoll where
  fdTable : Nat → DevPollEntry
  pendingList : List Nat
  evBuf : List (Nat × Revents)

namespace DevPoll

def setEntry (d : DevPoll) (fd : Nat) (e : DevPollEntry) : DevPoll :=
  { d with fdTable := Function.update d.fdTable fd e }

def setEvents (d : DevPoll) (fd : Nat) (f : PollMask → PollMask) : DevPoll :=
  d.setEntry fd { d.fdTable fd with events := f (d.fdTable fd).events }

/-- `devpoll_t::add_fd`. -/
def addFd (d : DevPoll) (fd engine : Nat) : Option DevPoll :=
  if (d.fdTable fd).inUse then none
  else
    some
      { d.setEntry fd ⟨⟨false, false⟩, engine, true, false⟩ with
        pendingList := d.pendingList ++ [fd] }

/-- `devpoll_t::rm_fd`. -/
def rmFd (d : DevPoll) (fd : Nat) : Option DevPoll :=
  if (d.fdTable fd).inUse then
    some (d.setEntry fd { d.fdTable fd with inUse := false })
  else none

def call (d : DevPoll) : MonitorCall → Option DevPoll
  | .addFd fd engine => d.addFd fd engine
  | .rmFd fd => d.rmFd fd
  | .setPollin fd => some (d.setEvents fd fun m => { m with pollin := true })
  | .resetPollin fd => some (d.setEvents fd fun m => { m with pollin := false })
  | .setPollout fd => some (d.setEvents fd fun m => { m with pollout := true })
  | .resetPollout fd => some (d.setEvents fd fun m => { m with pollout := false })

/-- Adopt the descriptors of the pending list. -/
def adopt (d : DevPoll) : DevPoll :=
  { d.pendingList.foldl
      (fun d fd => d.setEntry fd { d.fdTable fd with adopted := true }) d with
    pendingList := [] }

/-- The call of `ioctl`, with an answer of any kind. -/
def wait (d : DevPoll) (answer : List (Nat × Revents)) : Wait DevPoll :=
  { monitor := { d.adopt with evBuf := answer }
    events := answer.flatMap fun p => p.2.events p.1
    timeout := answer.isEmpty }

/-- `devpoll_t`.  The entries of the table are not initialised but for
`in_use`. -/
def monitor (fdTable : Nat → DevPollEntry) :
    Monitor DevPoll (List (Nat × Revents)) where
  start :=
    { fdTable := fun fd => { fdTable fd with inUse := false }
      pendingList := [], evBuf := [] }
  call := call
  wait := wait
  size d := d.evBuf.length
  load d i := d.evBuf[i]?.map fun p => ⟨some p.1, (d.fdTable p.1).engine⟩
  order := [.eventErr, .eventOut, .eventIn]
  alive d _ vars := vars.fd.any fun fd =>
    (d.fdTable fd).inUse && (d.fdTable fd).adopted
  ready d i _ event := d.evBuf[i]?.any fun p => p.2.has event
  engine _ _ vars := vars.engine
  finish d := d

/-- The entries in use are the registrations, those adopted have lasted, and
the buffer has the events of the report. -/
structure Rel (d : DevPoll) (l : Ledger) : Prop where
  entries : ∀ fd engine, (fd, engine) ∈ l.registered ↔
    (d.fdTable fd).inUse = true ∧ (d.fdTable fd).engine = engine
  adopted : ∀ fd, (d.fdTable fd).inUse = true → (d.fdTable fd).adopted = true →
    (fd, (d.fdTable fd).engine) ∈ l.eligible
  buffer : ∀ p ∈ d.evBuf, ∀ event, p.2.has event = true →
    (p.1, event) ∈ l.reported

/-- The entry of the buffer, and the engine it was loaded with. -/
def Current (d : DevPoll) (i : Nat) (vars : LoopVars) : Prop :=
  ∃ p, d.evBuf[i]? = some p ∧ vars.fd = some p.1 ∧
    ((d.fdTable p.1).inUse = true → (d.fdTable p.1).adopted = true →
      (d.fdTable p.1).engine = vars.engine)

variable {d d' : DevPoll} {l : Ledger}

theorem setEvents_fdTable (d : DevPoll) (fd : Nat) (f : PollMask → PollMask)
    (x : Nat) :
    ((d.setEvents fd f).fdTable x).inUse = (d.fdTable x).inUse ∧
      ((d.setEvents fd f).fdTable x).engine = (d.fdTable x).engine ∧
      ((d.setEvents fd f).fdTable x).adopted = (d.fdTable x).adopted := by
  by_cases hx : x = fd
  · subst hx
    simp [setEvents, setEntry]
  · simp [setEvents, setEntry, hx]

theorem Rel.setEvents (h : Rel d l) (fd : Nat) (f : PollMask → PollMask) :
    Rel (d.setEvents fd f) l where
  entries x engine := by
    obtain ⟨hin, heng, _⟩ := setEvents_fdTable d fd f x
    rw [hin, heng]
    exact h.entries x engine
  adopted x := by
    obtain ⟨hin, heng, had⟩ := setEvents_fdTable d fd f x
    rw [hin, heng, had]
    exact h.adopted x
  buffer := h.buffer

theorem Current.setEvents (h : d.Current i vars) (fd : Nat)
    (f : PollMask → PollMask) :
    (d.setEvents fd f).Current i vars := by
  obtain ⟨p, hp, hfd, hvars⟩ := h
  obtain ⟨hin, heng, had⟩ := setEvents_fdTable d fd f p.1
  refine ⟨p, hp, hfd, ?_⟩
  rw [hin, heng, had]
  exact hvars

/-! `add_fd` and `rm_fd` leave an entry that is not alive. -/

theorem Rel.adopted_setEntry (h : Rel d l) {e : DevPollEntry}
    (he : e.inUse = true → e.adopted = false) (x : Nat)
    (hin : ((d.setEntry fd e).fdTable x).inUse = true)
    (had : ((d.setEntry fd e).fdTable x).adopted = true) :
    (x, ((d.setEntry fd e).fdTable x).engine) ∈
      Ledger.without fd l.eligible := by
  by_cases hx : x = fd
  · subst hx
    simp_all [setEntry]
  · simp only [setEntry, Function.update_of_ne hx] at hin had ⊢
    exact Ledger.mem_without.mpr ⟨h.adopted x hin had, hx⟩

theorem Current.setEntry (h : d.Current i vars) {e : DevPollEntry}
    (he : e.inUse = true → e.adopted = false) :
    (d.setEntry fd e).Current i vars := by
  obtain ⟨p, hp, hfd, hvars⟩ := h
  refine ⟨p, hp, hfd, ?_⟩
  by_cases hx : p.1 = fd
  · simp_all [DevPoll.setEntry]
  · simp only [DevPoll.setEntry, Function.update_of_ne hx]
    exact hvars

theorem Rel.addFd (h : Rel d l) (hd : d.addFd fd engine = some d') :
    Rel d' (l.next (.call (.addFd fd engine))) := by
  obtain ⟨huse, hd⟩ := Option.ite_none_left_eq_some.mp hd
  cases hd
  refine ⟨fun x e => ?_, h.adopted_setEntry fun _ => rfl, h.buffer⟩
  simp only [Ledger.next, List.mem_append, List.mem_singleton, h.entries,
    setEntry, Prod.mk.injEq]
  by_cases hx : x = fd
  · subst hx
    simp [huse, eq_comm]
  · simp [hx]

theorem Rel.rmFd (h : Rel d l) (hd : d.rmFd fd = some d') :
    Rel d' (l.next (.call (.rmFd fd))) := by
  obtain ⟨_, hd⟩ := Option.ite_none_right_eq_some.mp hd
  cases hd
  refine ⟨fun x e => ?_, h.adopted_setEntry nofun, h.buffer⟩
  simp only [Ledger.next, Ledger.mem_without, h.entries, setEntry]
  by_cases hx : x = fd
  · subst hx
    simp
  · simp [hx]

theorem Rel.call (h : Rel d l) (hd : d.call c = some d') :
    Rel d' (l.next (.call c)) := by
  cases c with
  | addFd fd engine => exact h.addFd hd
  | rmFd fd => exact h.rmFd hd
  | setPollin fd | resetPollin fd | setPollout fd | resetPollout fd =>
      cases hd
      exact h.setEvents _ _

theorem Current.call (hd : d.call c = some d') (h : d.Current i vars) :
    d'.Current i vars := by
  cases c with
  | addFd fd engine =>
      obtain ⟨_, hd⟩ := Option.ite_none_left_eq_some.mp hd
      cases hd
      exact h.setEntry fun _ => rfl
  | rmFd fd =>
      obtain ⟨_, hd⟩ := Option.ite_none_right_eq_some.mp hd
      cases hd
      exact h.setEntry nofun
  | setPollin fd | resetPollin fd | setPollout fd | resetPollout fd =>
      cases hd
      exact h.setEvents _ _

theorem adopt_fdTable (d : DevPoll) (x : Nat) :
    (d.adopt.fdTable x).inUse = (d.fdTable x).inUse ∧
      (d.adopt.fdTable x).engine = (d.fdTable x).engine := by
  unfold adopt
  generalize d.pendingList = fds
  induction fds generalizing d with
  | nil => exact ⟨rfl, rfl⟩
  | cons fd fds ih =>
      obtain ⟨hin, heng⟩ :=
        ih (d.setEntry fd { d.fdTable fd with adopted := true })
      by_cases hx : x = fd
      · subst hx
        simpa [setEntry] using And.intro hin heng
      · simpa [setEntry, hx] using And.intro hin heng

theorem Rel.wait (h : Rel d l) (answer : List (Nat × Revents)) :
    Rel (d.wait answer).monitor
      (l.next (.reported (d.wait answer).events)) where
  entries x engine := by
    obtain ⟨hin, heng⟩ := adopt_fdTable d x
    show (x, engine) ∈ l.registered ↔
      (d.adopt.fdTable x).inUse = true ∧ (d.adopt.fdTable x).engine = engine
    rw [hin, heng]
    exact h.entries x engine
  adopted x hin _ := by
    obtain ⟨hin', heng⟩ := adopt_fdTable d x
    exact (h.entries _ _).mpr ⟨hin' ▸ hin, heng.symm⟩
  buffer p hp event hev := List.mem_flatMap.mpr ⟨p, hp, Revents.mem_events hev⟩

theorem simulates (fdTable : Nat → DevPollEntry) :
    (monitor fdTable).Simulates Any Rel Current where
  start :=
    { entries := fun _ _ => by simp [Ledger.start, monitor]
      adopted := fun _ h => by cases h
      buffer := fun _ h => by cases h }
  call h _ _ hd := h.call hd
  keep _ _ hd hcur := hcur.call hd
  wait answer h := h.wait answer
  load h hload := by
    obtain ⟨p, hp, rfl⟩ := Option.map_eq_some_iff.mp hload
    exact ⟨p, hp, rfl, fun _ _ => rfl⟩
  callback := by
    intro d l i vars fd event h _ hcur hfd halive hready
    obtain ⟨p, hp, hvars, hengine⟩ := hcur
    obtain rfl : p.1 = fd := Option.some.inj (hvars.symm.trans hfd)
    have hlive : (d.fdTable p.1).inUse = true ∧
        (d.fdTable p.1).adopted = true := by
      simpa [monitor, hfd] using halive
    have hhas : p.2.has event = true := by
      simpa [monitor, hp] using hready
    have hlasts := h.adopted p.1 hlive.1 hlive.2
    rw [hengine hlive.1 hlive.2] at hlasts
    exact ⟨hlasts, h.buffer p (List.mem_of_getElem? hp) event hhas⟩
  finish h := h

end DevPoll

/-! ## `poll_t` -/

/-- `pollfd`; `none` is `retired_fd`. -/
structure PollFd where
  fd : Option Nat
  events : PollMask
  revents : Revents
  deriving DecidableEq, Repr

/-- Mark the entry as unused. -/
def PollFd.retire (p : PollFd) : PollFd := { p with fd := none }

def PollFd.setEvents (f : PollMask → PollMask) (p : PollFd) : PollFd :=
  { p with events := f p.events }

/-- `fd_entry_t` of `poll_t`. -/
structure PollEntry where
  index : Option Nat
  engine : Nat
  deriving DecidableEq, Repr

/-- `poll_t`. -/
structure Poll where
  fdTable : Nat → PollEntry
  pollset : List PollFd
  retired : Bool

namespace Poll

/-- `poll_t::add_fd`. -/
def addFd (s : Poll) (fd engine : Nat) : Option Poll :=
  if (s.fdTable fd).index = none then
    some
      { s with
        pollset := s.pollset ++ [⟨some fd, ⟨false, false⟩, .zero⟩]
        fdTable := Function.update s.fdTable fd ⟨some s.pollset.length, engine⟩ }
  else none

/-- `poll_t::rm_fd`. -/
def rmFd (s : Poll) (fd : Nat) : Option Poll :=
  (s.fdTable fd).index.map fun i =>
    { pollset := s.pollset.modify i PollFd.retire
      fdTable := Function.update s.fdTable fd
        { s.fdTable fd with index := none }
      retired := true }

/-- A change of the events asked for.  A descriptor that is not registered has
the index -1, which is outside the vector. -/
def setEvents (s : Poll) (fd : Nat) (f : PollMask → PollMask) : Option Poll :=
  (s.fdTable fd).index.map fun i =>
    { s with pollset := s.pollset.modify i (PollFd.setEvents f) }

def call (s : Poll) : MonitorCall → Option Poll
  | .addFd fd engine => s.addFd fd engine
  | .rmFd fd => s.rmFd fd
  | .setPollin fd => s.setEvents fd fun m => { m with pollin := true }
  | .resetPollin fd => s.setEvents fd fun m => { m with pollin := false }
  | .setPollout fd => s.setEvents fd fun m => { m with pollout := true }
  | .resetPollout fd => s.setEvents fd fun m => { m with pollout := false }

/-- What `poll` writes to an entry: nothing has happened to a negative
descriptor. -/
def answered (answer : Nat → Revents) (p : PollFd) : PollFd :=
  { p with revents := (p.fd.map answer).getD .zero }

/-- The call of `poll`. -/
def wait (s : Poll) (answer : Nat → Revents) : Wait Poll :=
  { monitor := { s with pollset := s.pollset.map (answered answer) }
    events := s.pollset.flatMap fun p =>
      (p.fd.map fun fd => (answer fd).events fd).getD []
    timeout := s.pollset.all fun p => (answered answer p).revents = .zero }

/-- Write the positions of the entries to the table, from `i` on. -/
def reindex (fdTable : Nat → PollEntry) (i : Nat) :
    List PollFd → Nat → PollEntry
  | [] => fdTable
  | p :: ps =>
      let fdTable := match p.fd with
        | some fd => Function.update fdTable fd
            { fdTable fd with index := some i }
        | none => fdTable
      reindex fdTable (i + 1) ps

/-- Clean up the pollset and update the table accordingly. -/
def finish (s : Poll) : Poll :=
  if s.retired then
    let pollset := s.pollset.filter fun p => p.fd ≠ none
    { pollset := pollset, fdTable := reindex s.fdTable 0 pollset,
      retired := false }
  else s

/-- `poll_t`.  The engines of the table are not initialised.  The engine loaded
for a retired entry comes from outside the table and is not used. -/
def monitor (engines : Nat → Nat) : Monitor Poll (Nat → Revents) where
  start :=
    { fdTable := fun fd => ⟨none, engines fd⟩, pollset := [], retired := false }
  call := call
  wait := wait
  size s := s.pollset.length
  load s i := s.pollset[i]?.bind fun p =>
    if p.revents.pollnval then none
    else some ⟨p.fd, (p.fd.map fun fd => (s.fdTable fd).engine).getD 0⟩
  order := [.eventErr, .eventOut, .eventIn]
  alive s i _ := s.pollset[i]?.any fun p => p.fd ≠ none
  ready s i _ event := s.pollset[i]?.any fun p => p.revents.has event
  engine _ _ vars := vars.engine
  finish := finish

/-- The table has the positions of the entries and the engines registered, and
an entry with an event has lasted. -/
structure Rel (s : Poll) (l : Ledger) : Prop where
  entries : ∀ fd engine, (fd, engine) ∈ l.registered ↔
    (s.fdTable fd).index ≠ none ∧ (s.fdTable fd).engine = engine
  index : ∀ fd i, (s.fdTable fd).index = some i ↔
    ∃ p, s.pollset[i]? = some p ∧ p.fd = some fd
  events : ∀ p ∈ s.pollset, ∀ fd event, p.fd = some fd →
    p.revents.has event = true →
      (fd, (s.fdTable fd).engine) ∈ l.eligible ∧ (fd, event) ∈ l.reported

/-- The entry is in its place and, unless it is retired, has the descriptor and
the engine it was loaded with. -/
def Current (s : Poll) (i : Nat) (vars : LoopVars) : Prop :=
  ∃ p, s.pollset[i]? = some p ∧ ∀ fd, p.fd = some fd →
    vars.fd = some fd ∧ vars.engine = (s.fdTable fd).engine

variable {s s' : Poll} {l : Ledger} {p : PollFd}

/-- An entry of the pollset has its position in the table. -/
theorem Rel.index_of_getElem? (h : Rel s l) (hp : s.pollset[i]? = some p)
    (hfd : p.fd = some fd) :
    (s.fdTable fd).index = some i :=
  (h.index fd i).mpr ⟨p, hp, hfd⟩

theorem Rel.index_ne_none (h : Rel s l) (hp : p ∈ s.pollset)
    (hfd : p.fd = some fd) :
    (s.fdTable fd).index ≠ none := by
  obtain ⟨i, hi⟩ := List.getElem?_of_mem hp
  rw [h.index_of_getElem? hi hfd]
  exact nofun

theorem getElem?_concat_eq_some {α : Type} {as : List α} {a b : α} :
    (as ++ [a])[i]? = some b ↔ as[i]? = some b ∨ i = as.length ∧ a = b := by
  rcases Nat.lt_trichotomy i as.length with hlt | rfl | hgt
  · simp [List.getElem?_append_left hlt, Nat.ne_of_lt hlt]
  · simp
  · have hout : (as ++ [a]).length ≤ i := by
      rw [List.length_append, List.length_singleton]
      exact hgt
    rw [List.getElem?_eq_none hout, List.getElem?_eq_none (Nat.le_of_lt hgt)]
    simp [Nat.ne_of_gt hgt]

theorem Rel.addFd (h : Rel s l) (hs : s.addFd fd engine = some s') :
    Rel s' (l.next (.call (.addFd fd engine))) := by
  obtain ⟨hnone, hs⟩ := Option.ite_none_right_eq_some.mp hs
  cases hs
  have hother : ∀ p ∈ s.pollset, ∀ x, p.fd = some x → x ≠ fd := by
    rintro p hp x hx rfl
    exact h.index_ne_none hp hx hnone
  refine
    { entries := fun x e => ?_, index := fun x i => ?_,
      events := fun p hp x event hx hev => ?_ }
  · simp only [Ledger.next, List.mem_append, List.mem_singleton, h.entries,
      Prod.mk.injEq]
    by_cases hx : x = fd
    · subst hx
      simp [hnone, eq_comm]
    · simp [hx]
  · simp only [getElem?_concat_eq_some]
    by_cases hx : x = fd
    · subst hx
      rw [Function.update_self, Option.some.injEq]
      refine ⟨fun hi => ⟨_, .inr ⟨hi.symm, rfl⟩, rfl⟩, ?_⟩
      rintro ⟨p, hp | ⟨hi, _⟩, hpx⟩
      · exact (hother p (List.mem_of_getElem? hp) x hpx rfl).elim
      · exact hi.symm
    · rw [Function.update_of_ne hx, h.index]
      refine exists_congr fun p => and_congr_left fun hpx => ?_
      refine ⟨.inl, ?_⟩
      rintro (hp | ⟨_, rfl⟩)
      · exact hp
      · exact (hx (Option.some.inj hpx).symm).elim
  · rcases List.mem_append.mp hp with hold | hnew
    · have hne := hother p hold x hx
      simp only [Function.update_of_ne hne]
      obtain ⟨hel, hrep⟩ := h.events p hold x event hx hev
      exact ⟨Ledger.mem_without.mpr ⟨hel, hne⟩, hrep⟩
    · rw [List.mem_singleton.mp hnew, Revents.zero_has] at hev
      cases hev

/-- The entry of another descriptor is elsewhere, and stays. -/
theorem Rel.of_getElem?_retire (h : Rel s l) {j x : Nat}
    (hi : (s.fdTable fd).index = some i)
    (hp : (s.pollset.modify i PollFd.retire)[j]? = some p)
    (hx : p.fd = some x) : x ≠ fd ∧ s.pollset[j]? = some p := by
  rw [List.getElem?_modify] at hp
  obtain ⟨q, hq, rfl⟩ := Option.map_eq_some_iff.mp hp
  by_cases hij : i = j
  · rw [if_pos hij] at hx
    cases hx
  · rw [if_neg hij] at hx ⊢
    refine ⟨?_, hq⟩
    rintro rfl
    have hj := h.index_of_getElem? hq hx
    rw [hi] at hj
    exact hij (Option.some.inj hj)

theorem Rel.rmFd (h : Rel s l) (hs : s.rmFd fd = some s') :
    Rel s' (l.next (.call (.rmFd fd))) := by
  obtain ⟨i, hi, rfl⟩ := Option.map_eq_some_iff.mp hs
  refine
    { entries := fun x e => ?_, index := fun x j => ?_,
      events := fun p hp x event hx hev => ?_ }
  · simp only [Ledger.next, Ledger.mem_without, h.entries]
    by_cases hx : x = fd
    · subst hx
      simp
    · simp [hx]
  · dsimp only
    by_cases hx : x = fd
    · subst hx
      rw [Function.update_self]
      refine ⟨fun hnone => ?_, ?_⟩
      · cases hnone
      rintro ⟨p, hp, hpx⟩
      exact ((h.of_getElem?_retire hi hp hpx).1 rfl).elim
    · rw [Function.update_of_ne hx, h.index]
      refine ⟨?_, ?_⟩
      · rintro ⟨p, hp, hpx⟩
        have hij : i ≠ j := by
          rintro rfl
          obtain ⟨q, hq, hqfd⟩ := (h.index fd i).mp hi
          rw [hq] at hp
          cases hp
          rw [hqfd] at hpx
          exact hx (Option.some.inj hpx).symm
        exact ⟨p, by rw [List.getElem?_modify, hp]; simp [hij], hpx⟩
      · rintro ⟨p, hp, hpx⟩
        exact ⟨p, (h.of_getElem?_retire hi hp hpx).2, hpx⟩
  · obtain ⟨j, hj⟩ := List.getElem?_of_mem hp
    obtain ⟨hne, hold⟩ := h.of_getElem?_retire hi hj hx
    simp only [Function.update_of_ne hne]
    obtain ⟨hel, hrep⟩ :=
      h.events p (List.mem_of_getElem? hold) x event hx hev
    exact ⟨Ledger.mem_without.mpr ⟨hel, hne⟩, hrep⟩

/-- A change that leaves the descriptor and the results of every entry. -/
theorem Rel.congr (h : Rel s l) (htable : s'.fdTable = s.fdTable)
    (hset : s'.pollset.map (fun p => (p.fd, p.revents)) =
      s.pollset.map fun p => (p.fd, p.revents)) : Rel s' l where
  entries := by
    rw [htable]
    exact h.entries
  index fd i := by
    have hi := congrArg (fun ps => ps[i]?.map Prod.fst) hset
    simp only [List.getElem?_map, Option.map_map] at hi
    have hfd : ∀ ps : List PollFd, (∃ p, ps[i]? = some p ∧ p.fd = some fd) ↔
        ps[i]?.map (Prod.fst ∘ fun p => (p.fd, p.revents)) = some (some fd) := by
      intro ps
      rw [Option.map_eq_some_iff]
      rfl
    rw [htable, h.index, hfd, hfd, hi]
  events p hp fd event hfd hev := by
    have hmem : (p.fd, p.revents) ∈ s.pollset.map fun p => (p.fd, p.revents) := by
      rw [← hset]
      exact List.mem_map_of_mem hp
    obtain ⟨q, hq, heq⟩ := List.mem_map.mp hmem
    obtain ⟨hqfd, hqrev⟩ := Prod.mk.inj heq
    rw [htable]
    exact h.events q hq fd event (hqfd.trans hfd) (hqrev ▸ hev)

theorem modify_events (ps : List PollFd) (i : Nat) (f : PollMask → PollMask) :
    (ps.modify i (PollFd.setEvents f)).map (fun p => (p.fd, p.revents)) =
      ps.map fun p => (p.fd, p.revents) := by
  apply List.ext_getElem?
  intro j
  simp only [List.getElem?_map, List.getElem?_modify]
  cases ps[j]? with
  | none => rfl
  | some p =>
      by_cases hij : i = j
      · simp [hij, PollFd.setEvents]
      · simp [hij]

theorem Rel.call (h : Rel s l) (hs : s.call c = some s') :
    Rel s' (l.next (.call c)) := by
  cases c with
  | addFd fd engine => exact h.addFd hs
  | rmFd fd => exact h.rmFd hs
  | setPollin fd | resetPollin fd | setPollout fd | resetPollout fd =>
      obtain ⟨i, _, rfl⟩ := Option.map_eq_some_iff.mp hs
      exact h.congr rfl (modify_events _ _ _)

theorem Current.call (hrel : Rel s l) (hs : s.call c = some s')
    (h : s.Current i vars) :
    s'.Current i vars := by
  obtain ⟨p, hp, hvars⟩ := h
  cases c with
  | addFd fd engine =>
      obtain ⟨hnone, hs⟩ := Option.ite_none_right_eq_some.mp hs
      cases hs
      refine ⟨p, getElem?_concat_eq_some.mpr (.inl hp), fun x hx => ?_⟩
      have hne : x ≠ fd := by
        rintro rfl
        exact hrel.index_ne_none (List.mem_of_getElem? hp) hx hnone
      simp only [Function.update_of_ne hne]
      exact hvars x hx
  | rmFd fd =>
      obtain ⟨j, hj, rfl⟩ := Option.map_eq_some_iff.mp hs
      refine ⟨_, by rw [List.getElem?_modify, hp]; rfl, fun x hx => ?_⟩
      dsimp only at hx ⊢
      by_cases hij : j = i
      · rw [if_pos hij] at hx
        cases hx
      · rw [if_neg hij] at hx
        have hne : x ≠ fd := by
          rintro rfl
          rw [hrel.index_of_getElem? hp hx] at hj
          exact hij (Option.some.inj hj).symm
        rw [Function.update_of_ne hne]
        exact hvars x hx
  | setPollin fd | resetPollin fd | setPollout fd | resetPollout fd =>
      obtain ⟨j, _, rfl⟩ := Option.map_eq_some_iff.mp hs
      refine ⟨_, by rw [List.getElem?_modify, hp]; rfl, fun x hx => ?_⟩
      apply hvars x
      dsimp only at hx
      split at hx
      · exact hx
      · exact hx

theorem Rel.wait (h : Rel s l) (answer : Nat → Revents) :
    Rel (s.wait answer).monitor
      (l.next (.reported (s.wait answer).events)) where
  entries := h.entries
  index fd i := by
    rw [show (s.wait answer).monitor.fdTable = s.fdTable from rfl, h.index]
    simp only [Poll.wait, List.getElem?_map, Option.map_eq_some_iff]
    refine ⟨fun ⟨p, hp, hfd⟩ => ⟨answered answer p, ⟨p, hp, rfl⟩, hfd⟩, ?_⟩
    rintro ⟨_, ⟨p, hp, rfl⟩, hfd⟩
    exact ⟨p, hp, hfd⟩
  events q hq fd event hfd hev := by
    obtain ⟨p, hp, rfl⟩ := List.mem_map.mp hq
    have hpfd : p.fd = some fd := hfd
    refine ⟨(h.entries _ _).mpr ⟨h.index_ne_none hp hpfd, rfl⟩, ?_⟩
    refine List.mem_flatMap.mpr ⟨p, hp, ?_⟩
    rw [hpfd]
    apply Revents.mem_events
    simpa [answered, hpfd] using hev

theorem Rel.distinct (h : Rel s l) : DistinctFds PollFd.fd s.pollset := by
  refine List.pairwise_iff_getElem.mpr fun i j hi hj hlt hne heq => ?_
  obtain ⟨fd, hfd⟩ := Option.ne_none_iff_exists'.mp hne
  have hi' := h.index_of_getElem? (List.getElem?_eq_getElem hi) hfd
  have hj' := h.index_of_getElem? (List.getElem?_eq_getElem hj) (heq ▸ hfd)
  rw [hi'] at hj'
  exact Nat.ne_of_lt hlt (Option.some.inj hj')

@[simp] theorem reindex_engine (fdTable : Nat → PollEntry) (i : Nat)
    (ps : List PollFd) (fd : Nat) :
    (reindex fdTable i ps fd).engine = (fdTable fd).engine := by
  induction ps generalizing fdTable i with
  | nil => rfl
  | cons p ps ih =>
      unfold reindex
      rw [ih]
      cases p.fd with
      | none => rfl
      | some x =>
          by_cases hx : fd = x
          · subst hx
            simp
          · simp [hx]

theorem reindex_of_not_mem {fdTable : Nat → PollEntry} {ps : List PollFd}
    (h : ∀ p ∈ ps, p.fd ≠ some fd) :
    (reindex fdTable i ps fd).index = (fdTable fd).index := by
  induction ps generalizing fdTable i with
  | nil => rfl
  | cons p ps ih =>
      unfold reindex
      rw [ih fun q hq => h q (List.mem_cons_of_mem p hq)]
      have hp := h p (List.mem_cons_self ..)
      cases hx : p.fd with
      | none => rfl
      | some x =>
          have hne : fd ≠ x := by
            rintro rfl
            exact hp hx
          simp [hne]

theorem reindex_of_getElem? {fdTable : Nat → PollEntry} {k : Nat}
    {ps : List PollFd} (h : DistinctFds PollFd.fd ps) (hp : ps[k]? = some p)
    (hfd : p.fd = some fd) :
    (reindex fdTable i ps fd).index = some (i + k) := by
  induction ps generalizing fdTable i k with
  | nil => cases hp
  | cons q qs ih =>
      obtain ⟨hfirst, hrest⟩ := List.pairwise_cons.mp h
      unfold reindex
      cases k with
      | zero =>
          cases hp
          have hno : ∀ q ∈ qs, q.fd ≠ some fd := by
            intro q hq heq
            exact hfirst q hq (by simp [hfd]) (hfd.trans heq.symm)
          rw [reindex_of_not_mem hno]
          simp [hfd]
      | succ k =>
          rw [ih hrest hp, Nat.add_right_comm, Nat.add_assoc]

theorem Rel.finish (h : Rel s l) : Rel s.finish l := by
  unfold Poll.finish
  split
  · have hdistinct :
        DistinctFds PollFd.fd (s.pollset.filter fun p => p.fd ≠ none) :=
      h.distinct.filter _
    -- an entry in use is in the new pollset
    have hkept : ∀ fd, (s.fdTable fd).index ≠ none →
        ∃ p ∈ s.pollset.filter fun p => p.fd ≠ none, p.fd = some fd := by
      intro fd hne
      obtain ⟨i, hi⟩ := Option.ne_none_iff_exists'.mp hne
      obtain ⟨p, hp, hfd⟩ := (h.index fd i).mp hi
      exact ⟨p, List.mem_filter.mpr
        ⟨List.mem_of_getElem? hp, by simp [hfd]⟩, hfd⟩
    have hindex : ∀ fd i,
        (reindex s.fdTable 0 (s.pollset.filter fun p => p.fd ≠ none) fd).index
          = some i ↔ ∃ p, (s.pollset.filter fun p => p.fd ≠ none)[i]? = some p ∧
            p.fd = some fd := by
      intro fd i
      refine ⟨fun hi => ?_, ?_⟩
      · by_cases hne : (s.fdTable fd).index = none
        · rw [reindex_of_not_mem, hne] at hi
          · cases hi
          · intro p hp hfd
            exact h.index_ne_none (List.mem_filter.mp hp).1 hfd hne
        · obtain ⟨p, hp, hfd⟩ := hkept fd hne
          obtain ⟨k, hk⟩ := List.getElem?_of_mem hp
          rw [reindex_of_getElem? hdistinct hk hfd, Nat.zero_add] at hi
          cases hi
          exact ⟨p, hk, hfd⟩
      · rintro ⟨p, hp, hfd⟩
        rw [reindex_of_getElem? hdistinct hp hfd, Nat.zero_add]
    refine
      { entries := fun fd engine => ?_, index := hindex,
        events := fun p hp fd event hfd hev => ?_ }
    · have hsame : (reindex s.fdTable 0
          (s.pollset.filter fun p => p.fd ≠ none) fd).index ≠ none ↔
          (s.fdTable fd).index ≠ none := by
        refine ⟨fun hne => ?_, fun hne => ?_⟩
        · obtain ⟨i, hi⟩ := Option.ne_none_iff_exists'.mp hne
          obtain ⟨p, hp, hfd⟩ := (hindex fd i).mp hi
          exact h.index_ne_none
            (List.mem_filter.mp (List.mem_of_getElem? hp)).1 hfd
        · obtain ⟨p, hp, hfd⟩ := hkept fd hne
          obtain ⟨k, hk⟩ := List.getElem?_of_mem hp
          rw [(hindex fd k).mpr ⟨p, hk, hfd⟩]
          exact nofun
      rw [h.entries, hsame, reindex_engine]
    · rw [reindex_engine]
      exact h.events p (List.mem_filter.mp hp).1 fd event hfd hev
  · exact h

theorem simulates (engines : Nat → Nat) :
    (monitor engines).Simulates Any Rel Current where
  start :=
    { entries := fun _ _ => by simp [Ledger.start, monitor]
      index := fun _ _ => by simp [monitor]
      events := fun _ h => by cases h }
  call h _ _ hs := h.call hs
  keep h _ hs hcur := hcur.call h hs
  wait answer h := h.wait answer
  load h hload := by
    obtain ⟨p, hp, hvars⟩ := Option.bind_eq_some_iff.mp hload
    obtain ⟨_, hvars⟩ := Option.ite_none_left_eq_some.mp hvars
    cases hvars
    exact ⟨p, hp, fun fd hfd => ⟨hfd, by simp [hfd]⟩⟩
  callback := by
    intro s l i vars fd event h _ hcur hfd halive hready
    obtain ⟨p, hp, hvars⟩ := hcur
    have hne : p.fd ≠ none := by simpa [monitor, hp] using halive
    obtain ⟨x, hx⟩ := Option.ne_none_iff_exists'.mp hne
    obtain ⟨hxfd, hengine⟩ := hvars x hx
    obtain rfl : x = fd := Option.some.inj (hxfd.symm.trans hfd)
    have hhas : p.revents.has event = true := by
      simpa [monitor, hp] using hready
    have hevent := h.events p (List.mem_of_getElem? hp) x event hx hhas
    rw [← hengine] at hevent
    exact hevent
  finish h := h.finish

end Poll

/-! ## No stale events -/

/-- Whatever the operating system reports and whatever the engines do to the
descriptors in the round, a callback goes to an engine that was registered for
the descriptor when the event was reported and has been so ever since; an engine
whose descriptor was removed, or added during the round, is not called.  The
callers of `select_t` must not add a descriptor that is registered; those of
`poll_t` and `devpoll_t` fail an assertion if they do. -/
theorem no_stale_events (engines : Nat → Nat) (fdTable : Nat → DevPollEntry) :
    (∀ acts s, Run (RoundSys.step Select.monitor)
        (RoundSys.Calls Select.Proper) (RoundSys.start Select.monitor) acts s →
      Prompt s.log) ∧
    (∀ acts s, Run (RoundSys.step (Poll.monitor engines)) Any
        (RoundSys.start (Poll.monitor engines)) acts s →
      Prompt s.log) ∧
    ∀ acts s, Run (RoundSys.step (DevPoll.monitor fdTable)) Any
        (RoundSys.start (DevPoll.monitor fdTable)) acts s →
      Prompt s.log := by
  refine ⟨fun acts s h => Select.simulates.prompt h, fun acts s h => ?_,
    fun acts s h => ?_⟩
  · exact (Poll.simulates engines).prompt (h.mono RoundSys.calls_any)
  · exact (DevPoll.simulates fdTable).prompt (h.mono RoundSys.calls_any)

/-- Two descriptors have input.  The engine of the first removes the second, and
it is added for another engine. -/
def reuse {ρ : Type} (answer : ρ) (first rest : Nat) : List (RoundAct ρ) :=
  [.call (.addFd 5 1), .call (.setPollin 5), .call (.addFd 6 2),
    .call (.setPollin 6), .wait answer] ++ List.replicate first .advance ++
  [.call (.rmFd 6), .call (.addFd 6 3), .call (.setPollin 6), .back false] ++
  List.replicate rest .advance

/-- The history of such a round, in which nobody else is called. -/
def reuseLog : List MonitorEntry :=
  [.call (.addFd 5 1), .call (.setPollin 5), .call (.addFd 6 2),
    .call (.setPollin 6), .reported [(5, .eventIn), (6, .eventIn)],
    .callback 5 1 .eventIn, .call (.rmFd 6), .call (.addFd 6 3),
    .call (.setPollin 6)]

/-- Entries of the table of `devpoll_t` as they may be before the first use. -/
def untidy (_ : Nat) : DevPollEntry := ⟨⟨true, true⟩, 9, true, true⟩

theorem no_stale_events_reuse :
    (∃ s, Run (RoundSys.step Select.monitor) (RoundSys.Calls Select.Proper)
        (RoundSys.start Select.monitor)
        (reuse [(5, .eventIn), (6, .eventIn)] 3 10) s ∧
      s.cursor = .outside ∧ s.log = reuseLog ∧ Prompt s.log) ∧
    (∃ s, Run (RoundSys.step (Poll.monitor id)) Any
        (RoundSys.start (Poll.monitor id))
        (reuse (fun _ => ⟨true, false, false, false⟩) 4 9) s ∧
      s.cursor = .outside ∧ s.log = reuseLog ∧ Prompt s.log) ∧
    ∃ s, Run (RoundSys.step (DevPoll.monitor untidy)) Any
        (RoundSys.start (DevPoll.monitor untidy))
        (reuse [(5, ⟨true, false, false, false⟩),
          (6, ⟨true, false, false, false⟩)] 4 4) s ∧
      s.cursor = .outside ∧ s.log = reuseLog ∧ Prompt s.log := by
  obtain ⟨hselect, hpoll, hdevpoll⟩ := no_stale_events id untidy
  refine ⟨?_, ?_, ?_⟩
  · exact Run.exists_of_exec (by decide +kernel)
      fun s hrun hs => ⟨And.left hs, And.right hs, hselect _ s hrun⟩
  · exact Run.exists_of_exec (by decide +kernel)
      fun s hrun hs => ⟨And.left hs, And.right hs, hpoll _ s hrun⟩
  · exact Run.exists_of_exec (by decide +kernel)
      fun s hrun hs => ⟨And.left hs, And.right hs, hdevpoll _ s hrun⟩

/-- A descriptor that is registered and readable is added once more, for the
engine `2`, while `1` is being called.  `select_t` calls `2` in the same round,
for the event that was reported to it before. -/
theorem stale_event_select :
    ∃ s, Run (RoundSys.step Select.monitor) Any (RoundSys.start Select.monitor)
        [.call (.addFd 5 1), .call (.setPollin 5), .wait [(5, .eventIn)],
          .advance, .advance, .advance, .call (.addFd 5 2), .back false,
          .advance, .advance, .advance, .advance, .advance] s ∧
      ¬ Prompt s.log := by
  refine Run.exists_of_exec (P := fun s => s.log =
    [.call (.addFd 5 1), .call (.setPollin 5), .reported [(5, .eventIn)],
      .callback 5 1 .eventIn] ++ [.call (.addFd 5 2)] ++
        .callback 5 2 .eventIn :: []) (by decide +kernel) ?_
  intro s hrun hlog hprompt
  obtain ⟨events, _, hlasted⟩ := hprompt _ [] 5 2 .eventIn hlog
  exact not_lasted_addFd hlasted

end ZeroMQ
