import ZeroMQ.Engine.Attachment
import ZeroMQ.Engine.Polling
import ZeroMQ.Lib.Rotation

/-!
# Live pipes

The reader's end of a pipe is alive until it finds the pipe empty; after that
its messages are read again only when the writer has sent `revive`.  With the
mux over such pipes an engine that does not poll for output has none to read,
whatever the order of events and commands.

## Main definitions

* `LiveEnd`, `LiveMux` — the reader's ends of pipes, and `mux_t` over them.
* `BpTcpEngine.liveStep` — the engine with the commands that change its pipes.

## Main results

* `LiveMux.quieting` — after a `read` that found nothing every pipe is dead or
  has had its delimiter read.
* `polling_while_working` — a connected engine polls while it has work.
-/

namespace ZeroMQ

open ZeroMQ.Lib

/-! ## The pipes -/

/-- The reader's end of a pipe with `alive`; `delimited` is a history, it says
that the delimiter has been read. -/
structure LiveEnd extends ReaderEnd where
  alive : Bool
  delimited : Bool
  deriving DecidableEq, Repr

namespace LiveEnd

/-- `pipe_t::read`.  A dead pipe is not looked at; one that has no message
dies. -/
def read (p : LiveEnd) : Option Message × LiveEnd :=
  if p.alive then
    match p.queue with
    | [] => (none, { p with alive := false })
    | .delimiter :: _ =>
        (none,
          { p with toReaderEnd := p.toReaderEnd.read.2, delimited := true })
    | _ :: _ =>
        (p.toReaderEnd.read.1, { p with toReaderEnd := p.toReaderEnd.read.2 })
  else (none, p)

/-- `messages` have been flushed to the pipe. -/
def arrived (messages : List (RawMsg Message)) (p : LiveEnd) : LiveEnd :=
  { p with queue := p.queue ++ messages }

/-- The engine does not expect anything of the pipe before a `revive`. -/
def Silent (p : LiveEnd) : Prop := p.alive = false ∨ p.delimited = true
  deriving Decidable

/-- Nothing is behind a delimiter that has been read. -/
def Dry (p : LiveEnd) : Prop := p.delimited = true → p.queue = []
  deriving Decidable

theorem silent_of_read {p : LiveEnd} (h : p.read.1 = none) :
    p.read.2.Silent := by
  unfold read at h ⊢
  by_cases halive : p.alive = true
  · rw [if_pos halive] at h ⊢
    split
    · exact .inl rfl
    · exact .inr rfl
    · next msg rest hne hqueue =>
        simp only [hqueue] at h
        cases msg with
        | delimiter => exact (hne rfl).elim
        | gap | data message =>
            simp only [ReaderEnd.read, hqueue] at h
            cases h
  · rw [if_neg halive]
    exact .inl (by simpa using halive)

theorem read_of_silent {p : LiveEnd} (hs : p.Silent) (hd : p.Dry) :
    p.read.1 = none ∧ p.read.2.Silent ∧ p.read.2.Dry := by
  unfold read
  by_cases halive : p.alive = true
  · have hdelimited : p.delimited = true := by
      rcases hs with hdead | hdelimited
      · rw [halive] at hdead
        cases hdead
      · exact hdelimited
    have hqueue := hd hdelimited
    simp only [if_pos halive, hqueue]
    exact ⟨trivial, .inl rfl, fun _ => hqueue⟩
  · rw [if_neg halive]
    exact ⟨rfl, hs, hd⟩

end LiveEnd

/-! ## `mux_t` -/

/-- `mux_t` over the reader's ends of its pipes. -/
structure LiveMux where
  pipes : List LiveEnd
  current : Nat
  valid : RingIndex pipes.length current

namespace LiveMux

/-- The constructor. -/
def create : LiveMux := ⟨[], 0, .inr ⟨rfl, rfl⟩⟩

/-- The pipe `current` refers to has been read; go to the next. -/
def next (m : LiveMux) (p : LiveEnd) (h : m.current < m.pipes.length) :
    LiveMux where
  pipes := m.pipes.set m.current p
  current := if m.current + 1 = m.pipes.length then 0 else m.current + 1
  valid := by
    rw [List.length_set]
    unfold RingIndex
    split <;> omega

/-- The loop of `mux_t::read`. -/
def readLoop : Nat → LiveMux → Option Message × LiveMux
  | 0, m => (none, m)
  | toProcess + 1, m =>
      if h : m.current < m.pipes.length then
        match m.pipes[m.current].read with
        | (some message, p) => (some message, m.next p h)
        | (none, p) => readLoop toProcess (m.next p h)
      else (none, m)

instance : Mux LiveMux where
  read m := m.readLoop m.pipes.length
  empty m := m.pipes.isEmpty
  initialiseShutdown m :=
    { m with
      pipes := m.pipes.map fun p =>
        { p with toReaderEnd := p.toReaderEnd.terminateReader }
      valid := by
        rw [List.length_map]
        exact m.valid }

/-- Change the end of one pipe. -/
def update (m : LiveMux) (pipe : Nat) (f : LiveEnd → LiveEnd) : LiveMux :=
  { m with
    pipes := m.pipes.map fun p => if p.pipe = pipe then f p else p
    valid := by
      rw [List.length_map]
      exact m.valid }

/-- `mux_t::receive_from`. -/
def receiveFrom (m : LiveMux) (p : LiveEnd) : LiveMux :=
  { m with
    pipes := m.pipes ++ [p]
    valid := by
      rw [List.length_append]
      exact m.valid.grow }

/-- `pipe_t::revive` for a pipe of the mux; it asserts that the pipe is not
alive. -/
def revive (m : LiveMux) (pipe : Nat) : Option LiveMux :=
  if m.pipes.any fun p => p.pipe = pipe && !p.alive then
    some (m.update pipe fun p => { p with alive := true })
  else none

/-- `mux_t::release_pipe`, which asserts that the pipe is there. -/
def releasePipe (m : LiveMux) (pipe : Nat) : Option LiveMux :=
  if h : m.pipes.any fun p => p.pipe = pipe then
    some
      { pipes := m.pipes.eraseP fun p => p.pipe = pipe
        current :=
          if m.current = (m.pipes.eraseP fun p => p.pipe = pipe).length then 0
          else m.current
        valid := by
          obtain ⟨p, hp, heq⟩ := List.any_eq_true.mp h
          have hlen := List.length_eraseP_add_one
            (p := fun p => decide (p.pipe = pipe)) hp heq
          exact RingIndex.shrink (hlen ▸ m.valid) }
  else none

/-- No pipe has anything to be read before a `revive`. -/
def Quiet (m : LiveMux) : Prop := ∀ p ∈ m.pipes, p.Silent

theorem readLoop_scan (k : Nat) (m : LiveMux)
    (hc : m.current < m.pipes.length) :
    ∃ p, Scan (fun x r x' => LiveEnd.read x = (r, x')) k m.current m.pipes
      (m.readLoop k).1 p (m.readLoop k).2.pipes := by
  induction k generalizing m with
  | zero => exact ⟨m.current, .done _ _⟩
  | succ k ih =>
      have hget : m.pipes[m.current]? = some m.pipes[m.current] :=
        List.getElem?_eq_getElem hc
      unfold readLoop
      rw [dif_pos hc]
      split
      · next message p hread => exact ⟨m.current, .hit hget hread⟩
      · next p hread =>
          have hlen : (m.next p hc).pipes.length = m.pipes.length :=
            List.length_set ..
          have hlt : (m.next p hc).current < (m.next p hc).pipes.length :=
            (m.next p hc).valid.lt (by omega)
          obtain ⟨q, hscan⟩ := ih (m.next p hc) hlt
          have hcur : (m.next p hc).current =
              (m.current + 1) % m.pipes.length := (ring_next hc).symm
          rw [hcur] at hscan
          exact ⟨q, .pass hget hread hscan⟩

/-- Every pipe has been tried when `read` returns false. -/
theorem quieting : Quieting Quiet where
  empty m h := by
    have hnil : m.pipes = [] := List.isEmpty_iff.mp h
    intro p hp
    rw [hnil] at hp
    cases hp
  read m m' h := by
    have hloop : m.readLoop m.pipes.length = (none, m') := h
    by_cases hnil : m.pipes.length = 0
    · rw [hnil, readLoop] at hloop
      cases hloop
      intro p hp
      rw [List.length_eq_zero_iff.mp hnil] at hp
      cases hp
    · have hc := m.valid.lt hnil
      obtain ⟨q, hscan⟩ := readLoop_scan m.pipes.length m hc
      rw [hloop] at hscan
      obtain ⟨_, hlen, htried⟩ := hscan.missed_all hc
      have hlen : m'.pipes.length = m.pipes.length := hlen
      intro p hp
      obtain ⟨i, hi, hget⟩ := List.getElem_of_mem hp
      obtain ⟨x, x', _, hread, hx'⟩ := htried i (by omega)
      have hsilent := LiveEnd.silent_of_read (p := x) (by rw [hread])
      rw [hread] at hsilent
      have heq : m'.pipes[i]? = some p := by
        rw [List.getElem?_eq_getElem hi, hget]
      rw [hx'] at heq
      cases heq
      exact hsilent

/-- A quiet mux with nothing behind its delimiters has nothing to read. -/
theorem read_of_quiet {m : LiveMux} (hq : m.Quiet)
    (hd : ∀ p ∈ m.pipes, p.Dry) : (Mux.read m).1 = none := by
  suffices hloop : ∀ k (m : LiveMux), m.Quiet → (∀ p ∈ m.pipes, p.Dry) →
      (m.readLoop k).1 = none from hloop _ m hq hd
  intro k
  induction k with
  | zero => exact fun _ _ _ => rfl
  | succ k ih =>
      intro m hq hd
      unfold readLoop
      split
      · next hc =>
          have hmem : m.pipes[m.current] ∈ m.pipes := List.getElem_mem hc
          obtain ⟨hnone, hsilent, hdry⟩ :=
            LiveEnd.read_of_silent (hq _ hmem) (hd _ hmem)
          split
          · next message p hread =>
              rw [hread] at hnone
              cases hnone
          · next p hread =>
              rw [hread] at hsilent hdry
              apply ih
              · exact forall_mem_set hq hsilent
              · exact forall_mem_set hd hdry
      · rfl

theorem Quiet.update {m : LiveMux} (h : m.Quiet) {f : LiveEnd → LiveEnd}
    (hf : ∀ p, p.Silent → (f p).Silent) (pipe : Nat) :
    (m.update pipe f).Quiet := by
  intro p hp
  obtain ⟨q, hq, rfl⟩ := List.mem_map.mp hp
  split
  · exact hf q (h q hq)
  · exact h q hq

theorem Quiet.releasePipe {m m' : LiveMux} {pipe : Nat} (h : m.Quiet)
    (hm : m.releasePipe pipe = some m') : m'.Quiet := by
  unfold LiveMux.releasePipe at hm
  split at hm
  · cases hm
    exact fun p hp => h p (List.mem_of_mem_eraseP hp)
  · cases hm

theorem releasePipe_nonempty {m m' : LiveMux} {pipe : Nat}
    (hm : m.releasePipe pipe = some m') : m.pipes ≠ [] := by
  rintro hnil
  simp [LiveMux.releasePipe, hnil] at hm

theorem revive_nonempty {m m' : LiveMux} {pipe : Nat}
    (hm : m.revive pipe = some m') : m.pipes ≠ [] := by
  rintro hnil
  simp [LiveMux.revive, hnil] at hm

end LiveMux

/-! ## The engine -/

/-- The events and commands of an engine with its pipes to read from.  `arrive`
is the writer of a pipe that flushes messages; `drain` is any change to the
pipes of the demux, by their readers or by `terminate_pipe`. -/
inductive LiveAct (δ : Type) where
  | register (env : EngineEnv)
  | inEvent (env : EngineEnv)
  | outEvent (env : EngineEnv)
  | timer (env : EngineEnv)
  | head (demux : δ) (env : EngineEnv)
  | revive (pipe : Nat) (env : EngineEnv)
  | sendTo (demux : δ)
  | receiveFrom (pipe : Nat) (messages : List (RawMsg Message))
  | terminatePipeAck (pipe : Nat)
  | arrive (pipe : Nat) (messages : List (RawMsg Message))
  | drain (demux : δ)

/-- The commands that attach a pipe. -/
def LiveAct.attaches {δ : Type} : LiveAct δ → Bool
  | .sendTo _ | .receiveFrom _ _ => true
  | _ => false

namespace BpTcpEngine

variable {δ : Type} [IDemux δ] {e e' e₀ : BpTcpEngine LiveMux δ}
  {act : LiveAct δ}

/-- A new pipe, as `receive_from` leaves it: it is alive, and terminated at once
if the engine is shutting down. -/
def newLiveEnd (e : BpTcpEngine LiveMux δ) (pipe : Nat)
    (messages : List (RawMsg Message)) : LiveEnd :=
  let p : ReaderEnd := ⟨pipe, messages, false⟩
  { toReaderEnd := if e.state = .shuttingDown then p.terminateReader else p
    alive := true
    delimited := false }

/-- What the commands make of the mux and the demux; `none` is a failed
assertion. -/
def liveCommand (e : BpTcpEngine LiveMux δ) (act : LiveAct δ) :
    Option (EngineAct LiveMux δ) :=
  let mux := e.encoder.derived.mux
  let demux := e.decoder.derived.demux
  match act with
  | .register env => some (.register env)
  | .inEvent env => some (.inEvent env)
  | .outEvent env => some (.outEvent env)
  | .timer env => some (.timer env)
  | .head demux env => some (.head demux env)
  | .revive pipe env => (mux.revive pipe).map fun mux => .revive mux env
  | .sendTo demux => some (.sendTo demux)
  | .receiveFrom pipe messages =>
      some (.receiveFrom (mux.receiveFrom (e.newLiveEnd pipe messages)))
  | .terminatePipeAck pipe =>
      (mux.releasePipe pipe).map fun mux => .pipes mux demux
  | .arrive pipe messages =>
      some (.pipes (mux.update pipe (LiveEnd.arrived messages)) demux)
  | .drain demux => some (.pipes mux demux)

/-- One event or command. -/
def liveStep (e : BpTcpEngine LiveMux δ) (act : LiveAct δ) :
    Option (BpTcpEngine LiveMux δ) :=
  match e.liveCommand act with
  | some act => e.step act
  | none => if e.aborted then none else some e.abort

/-- `head` and `revive` arrive while the engine is connected.  The poller raises
`out_event` while POLLOUT is set; an event that was waiting when POLLOUT was
reset may come late, where no message is behind a delimiter, the last message of
a pipe. -/
def Expected (e : BpTcpEngine LiveMux δ) : LiveAct δ → Prop
  | .outEvent _ => e.interest.pollout = true ∨
      ∀ p ∈ e.encoder.derived.mux.pipes, p.Dry
  | .head _ _ | .revive _ _ => e.state = .connected
  | _ => True

instance (e : BpTcpEngine LiveMux δ) (act : LiveAct δ) :
    Decidable (Expected e act) :=
  match act with
  | .outEvent _ => inferInstanceAs (Decidable (_ ∨ _))
  | .head _ _ | .revive _ _ => inferInstanceAs (Decidable (_ = _))
  | .register _ | .inEvent _ | .timer _ | .sendTo _ | .receiveFrom _ _
  | .terminatePipeAck _ | .arrive _ _ | .drain _ => .isTrue trivial

omit [IDemux δ] in
/-- No command but `revive` and `receive_from` makes a pipe readable. -/
theorem liveCommand_orderly {act' : EngineAct LiveMux δ} (hok : Expected e act)
    (h : e.liveCommand act = some act') :
    Orderly LiveMux.Quiet e act' := by
  have hnonempty : ∀ m : LiveMux, m.pipes ≠ [] → Mux.empty m = false := by
    intro m hm
    show m.pipes.isEmpty = false
    simpa using hm
  cases act with
  | register env | inEvent env | timer env | sendTo demux =>
      cases h
      trivial
  | outEvent env =>
      cases h
      rcases hok with hon | hdry
      · exact .inl hon
      · exact .inr fun hq => LiveMux.read_of_quiet hq hdry
  | head demux env =>
      cases h
      exact hok
  | revive pipe env =>
      obtain ⟨mux, hmux, rfl⟩ := Option.map_eq_some_iff.mp h
      exact ⟨hok, hnonempty _ (LiveMux.revive_nonempty hmux)⟩
  | receiveFrom pipe messages =>
      cases h
      trivial
  | terminatePipeAck pipe =>
      obtain ⟨mux, hmux, rfl⟩ := Option.map_eq_some_iff.mp h
      refine ⟨fun hq => hq.releasePipe hmux, fun hempty => ?_⟩
      rw [hnonempty _ (LiveMux.releasePipe_nonempty hmux)] at hempty
      cases hempty
  | arrive pipe messages =>
      cases h
      refine ⟨fun hq => ?_, fun hempty => ?_⟩
      · exact hq.update (f := LiveEnd.arrived messages) (fun _ hp => hp) pipe
      · show (List.map _ _).isEmpty = true
        rw [List.isEmpty_map]
        exact hempty
  | drain demux =>
      cases h
      exact ⟨id, id⟩

/-- The engine is in its place and polls while it has work, unless an assertion
has failed. -/
structure LiveInv (e : BpTcpEngine LiveMux δ) : Prop where
  safe : SafeInv e
  poll : e.aborted = false → PollInv LiveMux.Quiet e

theorem LiveInv.step (h : LiveInv e) (hok : Expected e act)
    (hstep : e.liveStep act = some e') : LiveInv e' := by
  unfold liveStep at hstep
  split at hstep
  · next act' hact =>
      have horderly := liveCommand_orderly hok hact
      have haborted := (Step.of_step hstep).1
      exact ⟨h.safe.step horderly.headSafe hstep,
        (h.poll haborted).step LiveMux.quieting h.safe horderly hstep⟩
  · obtain ⟨_, hstep⟩ := Option.ite_none_left_eq_some.mp hstep
    cases hstep
    exact ⟨SafeInv.abort h.safe.io, nofun⟩

omit [IDemux δ] in
theorem LiveInv.created (h : Created e) (hsize : 0 < e.writebufSize)
    (hmux : e.encoder.derived.mux = LiveMux.create) : LiveInv e := by
  refine ⟨SafeInv.created h, fun _ => ?_⟩
  have hquiet : LiveMux.create.Quiet := fun p hp => by cases hp
  cases h with
  | connecter writebufSize readbufSize mux demux fd handle =>
      cases hmux
      exact
        { out :=
            { size := hsize
              off := fun _ => rfl
              drained := fun _ => ⟨rfl, rfl⟩
              connecting := nofun
              connected := nofun }
          inp :=
            { off := fun _ => rfl
              buf := bufInv_of_eq rfl
              connected := nofun } }
  | accepted writebufSize readbufSize mux demux fd handle =>
      cases hmux
      exact
        { out :=
            { size := hsize
              off := fun _ => rfl
              drained := fun hs => by simp [accepted, create] at hs
              connecting := nofun
              connected := fun _ => .inr ⟨⟨rfl, rfl⟩, hquiet, .inl rfl⟩ }
          inp :=
            { off := fun _ => rfl
              buf := bufInv_of_eq rfl
              connected := fun _ => .inr (.inr rfl) } }

omit [IDemux δ] in
theorem attaches_liveCommand {act' : EngineAct LiveMux δ}
    (h : e.liveCommand act = some act') : attaches act' = act.attaches := by
  cases act with
  | revive pipe env | terminatePipeAck pipe =>
      obtain ⟨mux, _, rfl⟩ := Option.map_eq_some_iff.mp h
      rfl
  | _ =>
      cases h
      rfl

/-- `pipe_cnt` counts the commands of a run that attach a pipe. -/
theorem pipeCnt_of_run {ok : BpTcpEngine LiveMux δ → LiveAct δ → Prop}
    {acts : List (LiveAct δ)} (h : Run liveStep ok e₀ acts e)
    (haborted : e.aborted = false) :
    e.pipeCnt = e₀.pipeCnt + acts.countP LiveAct.attaches := by
  induction h with
  | nil e => rfl
  | @cons e₀ e₁ e act acts hok hstep hrest ih =>
      unfold liveStep at hstep
      split at hstep
      · next act' hact =>
          have hcnt := pipeCnt_step hstep
          rw [attaches_liveCommand hact] at hcnt
          rw [ih haborted, hcnt, List.countP_cons]
          omega
      · -- The process has ended.
        obtain ⟨_, hstep⟩ := Option.ite_none_left_eq_some.mp hstep
        cases hstep
        cases hrest with
        | nil => cases haborted
        | @cons _ _ _ act acts _ hnext _ =>
            unfold liveStep BpTcpEngine.step at hnext
            split at hnext
            · cases hnext
            · cases hnext

end BpTcpEngine

open BpTcpEngine

/-- A connected engine never stops polling while it has work: in every run of
events and commands, connections that break and are made again included, if
POLLOUT is not set then everything taken from the pipes has been written and
every pipe is dead or has had its delimiter read, and if POLLIN is not set then
bytes are left in the read buffer or no pipe was ever attached. -/
theorem polling_while_working {δ : Type} [IDemux δ]
    {e₀ e : BpTcpEngine LiveMux δ} {acts : List (LiveAct δ)}
    (h₀ : Created e₀) (hsize : 0 < e₀.writebufSize)
    (hmux : e₀.encoder.derived.mux = LiveMux.create)
    (hrun : Run liveStep Expected e₀ acts e) (haborted : e.aborted = false)
    (hs : e.state = .connected) :
    (e.interest.pollout = false →
      e.writePos = e.writebuf.length ∧ e.encoder.pending = [] ∧
        ∀ p ∈ e.encoder.derived.mux.pipes,
          p.alive = false ∨ p.delimited = true) ∧
      (e.interest.pollin = false →
        e.readPos < e.readSize ∨ ∀ act ∈ acts, act.attaches = false) := by
  have hinv : LiveInv e :=
    hrun.invariant (fun _ _ _ hI hok hstep => hI.step hok hstep)
      (LiveInv.created h₀ hsize hmux)
  have hpoll := hinv.poll haborted
  constructor
  · intro hoff
    rcases hpoll.out.connected hs with hon | hidle
    · rw [hoff] at hon
      cases hon
    · exact ⟨hidle.written, hidle.pending, hidle.quiet⟩
  · intro hoff
    rcases hpoll.inp.connected hs with hon | hlt | hcnt
    · rw [hoff] at hon
      cases hon
    · exact .inl hlt
    · right
      have hzero : e₀.pipeCnt = 0 := by
        cases h₀ with
        | connecter => rfl
        | accepted => rfl
      rw [pipeCnt_of_run hrun haborted, hzero, Nat.zero_add] at hcnt
      intro act hact
      have := List.countP_eq_zero.mp hcnt act hact
      simpa using this

/-- A connecter writes a message and stops polling for output; another message
and a `revive` make it go on until that one is written, too. -/
theorem polling_while_working_revived :
    ∃ e : BpTcpEngine LiveMux Nat,
      Run liveStep Expected (connecter 8 8 .create 0 (some 3) 0)
        [.register (calm []), .receiveFrom 0 [.data [5]], .outEvent (calm []),
          .outEvent (calm []), .outEvent (calm []), .arrive 0 [.data [7]],
          .revive 0 (calm []), .outEvent (calm [])] e ∧
      e.interest.pollout = false ∧ e.encoder.derived.pulled = [[5], [7]] ∧
      e.writePos = e.writebuf.length ∧ e.encoder.pending = [] ∧
      ∀ p ∈ e.encoder.derived.mux.pipes,
        p.alive = false ∨ p.delimited = true := by
  refine Run.exists_of_exec (P := fun e => e.aborted = false ∧
    e.state = .connected ∧ e.interest.pollout = false ∧
    e.encoder.derived.pulled = [[5], [7]]) (by decide +kernel) ?_
  rintro e hrun ⟨haborted, hs, hoff, hpulled⟩
  exact ⟨hoff, hpulled, (polling_while_working
    (.connecter 8 8 .create 0 (some 3) 0) (by decide) rfl hrun haborted hs).1
    hoff⟩

end ZeroMQ
