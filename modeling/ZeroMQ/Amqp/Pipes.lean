import ZeroMQ.Amqp.Client
import ZeroMQ.Pipe.Sleep

/-!
# The pipes of the AMQP client

A client between two pipes: it reads the messages of one (`outbound`) and
publishes them, and it writes the messages it receives to the other
(`inbound`).  Two commands about these pipes are sent only once: `revive`, when
the reader of a pipe sleeps and there is a new message, and `head`, when the
reader has taken a number of messages.  The client ignores both while it is
connecting.

The operations on the pipes are interleaved with the handlers of the client in
every way; when the client itself reads or writes is left open.  Only the
delivery of the two commands is tied to the client.

## Main definitions

* `AmqpPipes.step` — the client and its pipes.
* `AmqpPipes.Heeded` — a command is delivered to a client that looks at it.

## Main results

* `pipes_not_lost` — no message and no head position is lost when all commands
  are heeded.
* `commands_lost` — both are lost otherwise.
-/

namespace ZeroMQ

open Amqp Lib

/-! ## Head positions on their way -/

/-- The last head position, after a command. -/
def lastHead (position : Nat) : ToSource → Nat
  | .head position' => position'
  | .terminatePipe => position

/-- The positions on their way lead from what the writer knows to what the
reader has sent last. -/
def HeadsInv {M : Type} (sent : Nat) (s : PipeSys M) : Prop :=
  s.toSource.foldl lastHead s.pipe.lastHeadPosition = sent

/-- What has been sent last, after a step: the commands it has appended. -/
def sentAfter {M : Type} (sent : Nat) (s s' : PipeSys M) : Nat :=
  (s'.toSource.drop s.toSource.length).foldl lastHead sent

namespace HeadsInv

variable {M : Type} {s s' : PipeSys M} {sent : Nat}

/-- A step that neither sends nor receives. -/
theorem same (h : HeadsInv sent s) (hq : s'.toSource = s.toSource)
    (hp : s'.pipe.lastHeadPosition = s.pipe.lastHeadPosition) :
    HeadsInv (sentAfter sent s s') s' := by
  rw [sentAfter, hq, List.drop_length, HeadsInv, hq, hp]
  exact h

/-- A step that sends a command. -/
theorem append (h : HeadsInv sent s) {cmd : ToSource}
    (hq : s'.toSource = s.toSource ++ [cmd])
    (hp : s'.pipe.lastHeadPosition = s.pipe.lastHeadPosition) :
    HeadsInv (sentAfter sent s s') s' := by
  have h' : s.toSource.foldl lastHead s.pipe.lastHeadPosition = sent := h
  rw [sentAfter, hq, List.drop_left, HeadsInv, hq, hp, List.foldl_append, h']

/-- A step that receives a command. -/
theorem receive (h : HeadsInv sent s) {cmd : ToSource} {rest : List ToSource}
    (hq : s.toSource = cmd :: rest) (hq' : s'.toSource = rest)
    (hp : s'.pipe.lastHeadPosition = lastHead s.pipe.lastHeadPosition cmd) :
    HeadsInv (sentAfter sent s s') s' := by
  have h' : s.toSource.foldl lastHead s.pipe.lastHeadPosition = sent := h
  rw [sentAfter, List.drop_eq_nil_of_le (by rw [hq, hq']; simp), HeadsInv, hq',
    hp, ← List.foldl_cons, ← hq, h']
  rfl

theorem step (h : HeadsInv sent s) {a : PipeAct M} (hs : PipeSys.Step s a s') :
    HeadsInv (sentAfter sent s s') s' := by
  cases hs with
  | write hw hd hm hp | gapWritten hw hd hc hp =>
      exact h.same rfl (Pipe.write_frame hp).lastHeadPosition
  | headSwapIn hw hq hsw hp =>
      exact h.receive hq rfl (Pipe.refill_frame _ hp).lastHeadPosition
  | head hw hq hsw hp =>
      rw [(Pipe.writeDelayedGap_cases hp).1]
      exact h.receive hq rfl rfl
  | terminatePipe hw hq hsrc hdst => exact h.receive hq rfl rfl
  | resume hw hp =>
      rcases PipeSys.afterFlush_cases hp with
        ⟨_, rfl⟩ | ⟨_, _, rfl⟩ | ⟨_, _, _, rfl⟩ | ⟨_, rfl⟩
      all_goals exact h.same rfl rfl
  | popDelimiter hr hl ht => exact h.append rfl rfl
  | popQuiet hr hl hm hc =>
      obtain ⟨head, rfl⟩ := Pipe.countRead_eq hc
      exact h.same rfl rfl
  | popReport hr hl hm hc =>
      obtain ⟨head, rfl⟩ := Pipe.countRead_eq hc
      exact h.append rfl rfl
  | terminateReader hr hm ht => exact h.append rfl rfl
  | flush | gapDelayed | terminateWriterAgain | terminateWriter | casNothing
  | casFound | casNull | set | sendRevive | readDead | readPop | readFetch
  | fetchFound | fetchNone | die | popDelimiterAgain | revive
  | terminateReaderAgain | terminatePipeAck => exact h.same rfl rfl

theorem sentAfter_head (hs : PipeSys.Step s .head s') :
    sentAfter sent s s' = sent := by
  have hle : s'.toSource.length ≤ s.toSource.length := by
    cases hs with
    | headSwapIn hw hq hsw hp =>
        rw [hq]
        exact Nat.le_succ _
    | head hw hq hsw hp =>
        rw [hq]
        exact Nat.le_succ _
  rw [sentAfter, List.drop_eq_nil_of_le hle]
  rfl

/-- With no position on its way the writer knows the last one. -/
theorem quiescent (h : HeadsInv sent s)
    (hq : ∀ position, ToSource.head position ∉ s.toSource) :
    s.pipe.lastHeadPosition = sent := by
  have hfold : ∀ (cmds : List ToSource) (position : Nat),
      (∀ position', ToSource.head position' ∉ cmds) →
        cmds.foldl lastHead position = position := by
    intro cmds
    induction cmds with
    | nil => exact fun _ _ => rfl
    | cons cmd cmds ih =>
        intro position hnot
        rw [List.foldl_cons, ih _ fun position' hmem =>
          hnot position' (List.mem_cons_of_mem cmd hmem)]
        cases cmd with
        | head position' => exact (hnot position' (List.mem_cons_self ..)).elim
        | terminatePipe => rfl
  rw [← hfold s.toSource s.pipe.lastHeadPosition hq]
  exact h

end HeadsInv

/-! ## The system -/

/-- A client, a pipe of its mux and a pipe of its demux; `sentHead` is the last
head position the reader of the latter has sent. -/
structure AmqpPipes (M δ μ : Type) where
  client : AmqpClient δ μ
  outbound : PipeSys M
  inbound : PipeSys M
  sentHead : Nat

/-- A handler of the client, which may be one for a command about another of its
pipes; a step of one of the two pipes; the delivery of a command about these,
with what the client makes of the rest of its pipes. -/
inductive AmqpPipesAct (M δ μ : Type) where
  | client (act : AmqpAct δ μ)
  | outbound (act : PipeAct M)
  | inbound (act : PipeAct M)
  | revive (mux : μ) (env : AmqpEnv)
  | head (demux : δ) (env : AmqpEnv)

namespace AmqpPipes

variable {M δ μ : Type}

/-- Both pipes are new. -/
def start (client : AmqpClient δ μ) (outbound inbound : Pipe M) :
    AmqpPipes M δ μ :=
  { client := client, outbound := PipeSys.start outbound,
    inbound := PipeSys.start inbound, sentHead := 0 }

/-- `revive` arrives at the reader of the outbound pipe, between two of its
operations. -/
def deliverRevive (s : AmqpPipes M δ μ) : Option (PipeSys M) :=
  match s.outbound.reader, s.outbound.toDestination with
  | .idle, .revive :: rest =>
      if s.client.Attentive then s.outbound.step .revive
      else some { s.outbound with toDestination := rest }
  | _, _ => none

/-- `head` arrives at the writer of the inbound pipe. -/
def deliverHead (s : AmqpPipes M δ μ) : Option (PipeSys M) :=
  match s.inbound.writer, s.inbound.toSource with
  | .idle, .head _ :: rest =>
      if s.client.Attentive then s.inbound.step .head
      else some { s.inbound with toSource := rest }
  | _, _ => none

/-- One step.  `revive` of the outbound pipe and `head` of the inbound one reach
the client by their delivery only. -/
def step [IDemux δ] [Mux μ] (s : AmqpPipes M δ μ) (act : AmqpPipesAct M δ μ) :
    Option (AmqpPipes M δ μ) :=
  if s.client.aborted then none
  else
    match act with
    | .client act => (s.client.step act).map fun c => { s with client := c }
    | .outbound .revive => none
    | .outbound act =>
        (s.outbound.step act).map fun p => { s with outbound := p }
    | .inbound .head => none
    | .inbound act =>
        (s.inbound.step act).map fun p =>
          { s with
            inbound := p
            sentHead := sentAfter s.sentHead s.inbound p }
    | .revive mux env => do
        let p ← s.deliverRevive
        let c ← s.client.step (.revive mux env)
        return { s with client := c, outbound := p }
    | .head demux env => do
        let p ← s.deliverHead
        let c ← s.client.step (.head demux env)
        return { s with client := c, inbound := p }

/-- The client does not ignore the command that is delivered. -/
def Heeded (s : AmqpPipes M δ μ) : AmqpPipesAct M δ μ → Prop
  | .revive _ _ => s.client.Attentive
  | .head _ _ => s.client.Attentive
  | _ => True

instance (s : AmqpPipes M δ μ) (act : AmqpPipesAct M δ μ) :
    Decidable (s.Heeded act) :=
  match act with
  | .revive _ _ => inferInstanceAs (Decidable s.client.Attentive)
  | .head _ _ => inferInstanceAs (Decidable s.client.Attentive)
  | .client _ => .isTrue trivial
  | .outbound _ => .isTrue trivial
  | .inbound _ => .isTrue trivial

/-- The sleep protocol of one pipe, and the head positions of the other. -/
structure Inv (s : AmqpPipes M δ μ) : Prop where
  sleep : s.outbound.SleepInv
  heads : HeadsInv s.sentHead s.inbound

/-- A command that is heeded reaches the pipe. -/
theorem deliverRevive_eq_some {s : AmqpPipes M δ μ} {p : PipeSys M}
    (hok : s.client.Attentive) (h : s.deliverRevive = some p) :
    s.outbound.step .revive = some p := by
  unfold deliverRevive at h
  split at h
  · rw [if_pos hok] at h
    exact h
  · cases h

theorem deliverHead_eq_some {s : AmqpPipes M δ μ} {p : PipeSys M}
    (hok : s.client.Attentive) (h : s.deliverHead = some p) :
    s.inbound.step .head = some p := by
  unfold deliverHead at h
  split at h
  · rw [if_pos hok] at h
    exact h
  · cases h

variable [IDemux δ] [Mux μ]

/-- The pipes do not see more of the client than the delivery of commands. -/
theorem Inv.step {s s' : AmqpPipes M δ μ} {act : AmqpPipesAct M δ μ}
    (h : Inv s) (hok : s.Heeded act) (hstep : s.step act = some s') :
    Inv s' := by
  unfold AmqpPipes.step at hstep
  split at hstep
  · cases hstep
  · split at hstep
    · obtain ⟨c, _, rfl⟩ := Option.map_eq_some_iff.mp hstep
      exact { h with }
    · cases hstep
    · obtain ⟨p, hp, rfl⟩ := Option.map_eq_some_iff.mp hstep
      exact { h with sleep := h.sleep.step (.of_step hp) }
    · cases hstep
    · obtain ⟨p, hp, rfl⟩ := Option.map_eq_some_iff.mp hstep
      exact { h with heads := h.heads.step (.of_step hp) }
    · simp only [Option.bind_eq_bind, Option.bind_eq_some_iff, Option.pure_def,
        Option.some.injEq] at hstep
      obtain ⟨p, hp, c, _, rfl⟩ := hstep
      have hp' := deliverRevive_eq_some hok hp
      exact { h with sleep := h.sleep.step (.of_step hp') }
    · simp only [Option.bind_eq_bind, Option.bind_eq_some_iff, Option.pure_def,
        Option.some.injEq] at hstep
      obtain ⟨p, hp, c, _, rfl⟩ := hstep
      have hs := PipeSys.Step.of_step (deliverHead_eq_some hok hp)
      have hheads := h.heads.step hs
      rw [HeadsInv.sentAfter_head hs] at hheads
      exact { h with heads := hheads }

omit [IDemux δ] [Mux μ] in
theorem Inv.start (client : AmqpClient δ μ) (src dst src' dst' : EngineLimits)
    (room room' : List (RawMsg M) → RawMsg M → Bool) :
    Inv (AmqpPipes.start client (Pipe.create src dst room)
      (Pipe.create src' dst' room')) where
  sleep := PipeSys.SleepInv.start src dst room
  heads := rfl

end AmqpPipes

open AmqpPipes

/-- No pipe is lost, in any interleaving of the client, its pipes and the
threads at their other ends in which the client heeds the commands delivered to
it, and in every state of the client: a flushed message that is unread has a
reader that is alive or will be revived (the last case being a `flush` that has
not returned), and with no `head` on its way the writer's position is the last
one the reader has sent. -/
theorem pipes_not_lost {M δ μ : Type} [IDemux δ] [Mux μ]
    {client : AmqpClient δ μ} {src dst src' dst' : EngineLimits}
    {room room' : List (RawMsg M) → RawMsg M → Bool}
    {acts : List (AmqpPipesAct M δ μ)} {s : AmqpPipes M δ μ}
    (h : Run step Heeded
      (start client (Pipe.create src dst room) (Pipe.create src' dst' room'))
      acts s) :
    (s.outbound.pipe.pipe.front < s.outbound.pipe.pipe.w →
      s.outbound.pipe.alive = true ∨ .revive ∈ s.outbound.toDestination ∨
        ∃ k, s.outbound.writer = .revive k) ∧
    ((∀ position, ToSource.head position ∉ s.inbound.toSource) →
      s.inbound.pipe.lastHeadPosition = s.sentHead) := by
  have hinv : Inv s :=
    h.invariant (fun _ _ _ hI hok hs => Inv.step hI hok hs)
      (Inv.start client src dst src' dst' room room')
  exact ⟨hinv.sleep.unread, hinv.heads.quiescent⟩

/-- The client becomes active; its reader finds the outbound pipe empty and
falls asleep; a message goes through the inbound pipe, and its reader sends a
head position.  The connection is lost: `error` writes a gap to the inbound
pipe, and a message is written to the outbound one while the client is
connecting.  Both commands are delivered, and the client becomes active again;
`early` tells whether they come before that. -/
def reconnection (early : Bool) :
    List (AmqpPipesAct Unit Unit (List Message)) :=
  let env := brokerEnv (some (handshake.flatMap methodFrame))
  let quiet := brokerEnv (some [])
  let deliveries := [.revive [] quiet, .head () quiet]
  let connect := [.client (.outEvent env), .client (.inEvent env)]
  [.client (.register 7)] ++ connect ++
    [.outbound .read, .outbound .fetch, .outbound .die,
      .inbound (.write (.data ())), .inbound .flush, .inbound .cas,
      .inbound .resume, .inbound .read, .inbound .fetch, .inbound .pop,
      .client (.inEvent (brokerEnv none)),
      .inbound .gap, .inbound .cas, .inbound .resume,
      .outbound (.write (.data ())), .outbound .flush, .outbound .cas,
      .outbound .set, .outbound .sendRevive, .outbound .resume] ++
    if early then deliveries ++ connect else connect ++ deliveries

/-- A client whose inbound pipe takes two messages, and whose reader reports each
of them. -/
def smallSystem : AmqpPipes Unit Unit (List Message) :=
  start (AmqpClient.create 200 200 [] () [113] (some 3) 0 0)
    (Pipe.create ⟨-1, 0, 0⟩ ⟨-1, 0, 0⟩ fun _ _ => true)
    (Pipe.create ⟨2, 2, 0⟩ ⟨0, 0, 0⟩ fun _ _ => true)

/-- The commands come after the client has become active. -/
theorem pipes_not_lost_late :
    ∃ s, Run step Heeded smallSystem (reconnection false) s ∧
      s.client.aborted = false ∧ s.client.core.state = .active ∧
      s.sentHead = 1 ∧
      s.outbound.pipe.pipe.front < s.outbound.pipe.pipe.w ∧
      (s.outbound.pipe.alive = true ∨ .revive ∈ s.outbound.toDestination ∨
        ∃ k, s.outbound.writer = .revive k) ∧
      s.inbound.pipe.lastHeadPosition = s.sentHead := by
  refine Run.exists_of_exec (P := fun s => s.client.aborted = false ∧
    s.client.core.state = .active ∧ s.sentHead = 1 ∧
    s.outbound.pipe.pipe.front < s.outbound.pipe.pipe.w ∧
    s.inbound.toSource = []) (by decide +kernel) ?_
  rintro s hrun ⟨hok, hstate, hsent, hlt, hnil⟩
  obtain ⟨halive, hheads⟩ := pipes_not_lost hrun
  exact ⟨hok, hstate, hsent, hlt, halive hlt,
    hheads fun position hmem => by rw [hnil] at hmem; cases hmem⟩

/-- The commands come while the client is connecting.  It is active then, with a
flushed message in a pipe that is not alive and that nobody will revive, and
with a head position it does not know. -/
theorem commands_lost :
    ∃ s, Run step Any smallSystem (reconnection true) s ∧
      s.client.aborted = false ∧ s.client.core.state = .active ∧
      s.outbound.pipe.pipe.front < s.outbound.pipe.pipe.w ∧
      s.outbound.pipe.alive = false ∧ s.outbound.toDestination = [] ∧
      s.outbound.writer = .idle ∧ s.inbound.toSource = [] ∧
      s.inbound.pipe.lastHeadPosition = 0 ∧ s.sentHead = 1 :=
  Run.of_exec_any (by decide +kernel)

end ZeroMQ
