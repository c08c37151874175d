import ZeroMQ.Engine.Stream
import ZeroMQ.Lib.Segments

/-!
# Transfer over connections that break

A sending engine and a receiving engine, with a byte channel from the one to
the other.  The channel is first-in first-out within a connection, takes any
part of a write and delivers bytes in any pieces.  It breaks when one of the
engines finds it broken, which may be at any byte and at different times; each
of them then runs `error` and may get a new connection.

Connections are numbered.  The sender counts its own; the receiver gets any
connection later than the one it had, so some of them may pass it by, and it
may still be reading from one that the sender has lost long since.

What the sender reads from its own socket, and what the receiver writes, is
arbitrary.

## Main results

* `Link.SendInv.sender` — in each connection the bytes accepted by the socket
  start the encoding of the messages pulled in it.
* `Link.ReceiveInv.receiver` — in each connection the messages pushed are framed
  by the bytes of that connection alone.
* `Link.transfer` — the receiver pushes an ordered part of what the sender has
  pulled, and an unbroken run of it in each connection.
-/

namespace ZeroMQ

open ZeroMQ.Lib BpTcpEngine

/-- The two engines, and the bytes the sender's socket has accepted in each
connection; the connections the engines have and how many bytes the receiver
has taken from its own; then the messages pulled and pushed in each
connection. -/
structure Link (μ δ μ' δ' : Type) where
  sender : BpTcpEngine μ δ
  receiver : BpTcpEngine μ' δ'
  wire : Nat → List UInt8
  senderConn : Nat
  receiverConn : Nat
  taken : Nat
  pulledOn : Nat → List Message
  pushedOn : Nat → List Message

/-- An event or a command of one of the engines; `conn` is the connection the
receiver gets when it is connected by it. -/
inductive LinkAct (μ δ μ' δ' : Type) where
  | sender (act : EngineAct μ δ)
  | receiver (act : EngineAct μ' δ') (conn : Nat)

namespace Link

variable {μ δ μ' δ' : Type}

/-- The start, with no connection. -/
def create (sender : BpTcpEngine μ δ) (receiver : BpTcpEngine μ' δ') :
    Link μ δ μ' δ' :=
  { sender := sender, receiver := receiver, wire := fun _ => [],
    senderConn := 0, receiverConn := 0, taken := 0, pulledOn := fun _ => [],
    pushedOn := fun _ => [] }

/-- The sender has become `s`: what it has sent is on the wire. -/
def senderMoves (l : Link μ δ μ' δ') (s : BpTcpEngine μ δ) : Link μ δ μ' δ' :=
  { l with
    sender := s
    wire := record l.wire l.senderConn (s.sent.drop l.sender.sent.length)
    pulledOn := record l.pulledOn l.senderConn
      (s.pulled.drop l.sender.pulled.length)
    senderConn :=
      if Live s ∧ ¬ Live l.sender then l.senderConn + 1 else l.senderConn }

/-- The receiver has become `r`, provided that what it has read comes next on
the wire. -/
def receiverMoves (l : Link μ δ μ' δ') (conn : Nat) (r : BpTcpEngine μ' δ') :
    Option (Link μ δ μ' δ') :=
  let bytes := r.got.drop l.receiver.got.length
  if bytes <+: (l.wire l.receiverConn).drop l.taken then
    let l' :=
      { l with
        receiver := r
        taken := l.taken + bytes.length
        pushedOn := record l.pushedOn l.receiverConn
          (r.pushed.drop l.receiver.pushed.length) }
    if Live r ∧ ¬ Live l.receiver then
      if l.receiverConn < conn then
        some { l' with receiverConn := conn, taken := 0 }
      else none
    else some l'
  else none

section Step

variable [Mux μ] [IDemux δ] [Mux μ'] [IDemux δ']

/-- One handler of one of the engines. -/
def step (l : Link μ δ μ' δ') : LinkAct μ δ μ' δ' → Option (Link μ δ μ' δ')
  | .sender act => (l.sender.step act).map l.senderMoves
  | .receiver act conn => (l.receiver.step act).bind (l.receiverMoves conn)

end Step

/-- No `head` or `revive` arrives while its engine is not connected. -/
def InConnection (l : Link μ δ μ' δ') : LinkAct μ δ μ' δ' → Prop
  | .sender act => l.sender.InConnection act
  | .receiver act _ => l.receiver.InConnection act

instance (l : Link μ δ μ' δ') (act : LinkAct μ δ μ' δ') :
    Decidable (InConnection l act) := by
  cases act <;> unfold InConnection <;> infer_instance

/-! ## The sender -/

/-- The sender's half. -/
structure SendInv (l : Link μ δ μ' δ') : Prop where
  safe : SafeInv l.sender
  stream : StreamInv l.sender
  wire : ∀ k, l.wire k <+: bpEncode (l.pulledOn k)
  live : l.sender.aborted = false → Live l.sender →
    l.wire l.senderConn ++ l.sender.outbound =
      bpEncode (l.pulledOn l.senderConn)
  later : ∀ k, l.senderConn < k → l.wire k = [] ∧ l.pulledOn k = []
  sent : l.sender.sent = history l.wire l.senderConn
  pulled : l.sender.pulled = history l.pulledOn l.senderConn

variable {l : Link μ δ μ' δ'} {r : BpTcpEngine μ' δ'} {l' : Link μ δ μ' δ'}
  {s : BpTcpEngine μ δ}

theorem senderMoves_still (h : Still l.sender s) :
    l.senderMoves s =
      { l with
        sender := s
        senderConn :=
          if Live s ∧ ¬ Live l.sender then l.senderConn + 1
          else l.senderConn } := by
  simp [senderMoves, h.sent, h.pulled]

/-- Without a connection, or until one is there. -/
theorem SendInv.rests (h : SendInv l) (hlive : ¬ Live l.sender)
    (hsafe : SafeInv s) (hrests : Rests l.sender s) :
    SendInv (l.senderMoves s) := by
  rw [senderMoves_still hrests.still]
  have hle : l.senderConn ≤
      if Live s ∧ ¬ Live l.sender then l.senderConn + 1
      else l.senderConn := by
    split
    · exact Nat.le_succ _
    · exact Nat.le_refl _
  exact
    { safe := hsafe
      stream := hrests.streamInv
      wire := h.wire
      live := by
        intro haborted hs
        have hs : Live s := hs
        have hclean : Clean s := hrests.clean haborted (by simp [hs.2])
        obtain ⟨hwire, hpulled⟩ := h.later _ (Nat.lt_succ_self l.senderConn)
        simp [hs, hlive, hwire, hpulled, hclean.outbound]
      later := fun k hk => h.later k (Nat.lt_of_le_of_lt hle hk)
      sent := by
        rw [history_of_empty hle fun k hk => (h.later k hk).1]
        exact hrests.still.sent.trans h.sent
      pulled := by
        rw [history_of_empty hle fun k hk => (h.later k hk).2]
        exact hrests.still.pulled.trans h.pulled }

theorem SendInv.passed (h : SendInv l) (haborted : l.sender.aborted = false)
    (hlive : Live l.sender) (hsafe : SafeInv s) (hpassed : Passed l.sender s) :
    SendInv (l.senderMoves s) := by
  obtain ⟨e₁, hflow, hstill, hsame⟩ := hpassed.flow
  obtain ⟨ms, bytes, hpulled, hsent, hout⟩ := hflow.out
  have hmoves : l.senderMoves s =
      { l with
        sender := s
        wire := record l.wire l.senderConn bytes
        pulledOn := record l.pulledOn l.senderConn ms } := by
    simp [senderMoves, hstill.sent, hstill.pulled, hsent, hpulled, hlive]
  have hwire : l.wire l.senderConn ++ bytes ++ e₁.outbound =
      bpEncode (l.pulledOn l.senderConn ++ ms) := by
    rw [bpEncode_append, ← h.live haborted hlive, List.append_assoc,
      List.append_assoc, hout]
  rw [hmoves]
  exact
    { safe := hsafe
      stream := hpassed.streamInv (h.stream.live haborted hlive)
      wire := by
        intro k
        by_cases hk : k = l.senderConn
        · rw [hk]
          simp only [record_self]
          exact ⟨_, hwire⟩
        · simp only [record_of_ne hk]
          exact h.wire k
      live := by
        intro hs hl
        have hs : s = e₁ := hsame hs hl
        simp only [record_self, hs]
        exact hwire
      later := by
        intro k hk
        simp only [record_of_ne (Nat.ne_of_gt hk)]
        exact h.later k hk
      sent := by
        rw [history_record]
        show s.sent = _
        rw [hstill.sent, hsent, h.sent]
      pulled := by
        rw [history_record]
        show s.pulled = _
        rw [hstill.pulled, hpulled, h.pulled] }

/-! ## The receiver -/

/-- The receiver's half.  In a connection, the bytes taken from the wire are
those the decoder has `seen` since the connection began, and those the engine
holds. -/
structure ReceiveInv (l : Link μ δ μ' δ') : Prop where
  safe : SafeInv l.receiver
  stream : StreamInv l.receiver
  framed : ∀ k, ∃ bytes, BpFramed bytes (l.pushedOn k) ∧ bytes <+: l.wire k
  live : l.receiver.aborted = false → Live l.receiver →
    ∃ base seen, BpDecoder.Parsed base l.receiver.decoder seen ∧
      l.receiver.pushed = base ++ l.pushedOn l.receiverConn ∧
      seen ++ l.receiver.inbound <+: l.wire l.receiverConn ∧
      l.taken = (seen ++ l.receiver.inbound).length
  later : ∀ k, l.receiverConn < k → l.pushedOn k = []
  pushed : l.receiver.pushed = history l.pushedOn l.receiverConn

theorem ReceiveInv.grow (h : ReceiveInv l) (hwire : ∀ k, l.wire k <+: l'.wire k)
    (hreceiver : l'.receiver = l.receiver)
    (hconn : l'.receiverConn = l.receiverConn) (htaken : l'.taken = l.taken)
    (hpushed : l'.pushedOn = l.pushedOn) : ReceiveInv l' where
  safe := by rw [hreceiver]; exact h.safe
  stream := by rw [hreceiver]; exact h.stream
  framed := by
    intro k
    obtain ⟨bytes, hframed, hpre⟩ := h.framed k
    rw [hpushed]
    exact ⟨bytes, hframed, hpre.trans (hwire k)⟩
  live := by
    rw [hreceiver, hconn, htaken, hpushed]
    intro haborted hlive
    obtain ⟨base, seen, hparsed, hbase, hpre, hlen⟩ := h.live haborted hlive
    exact ⟨base, seen, hparsed, hbase, hpre.trans (hwire _), hlen⟩
  later := by rw [hconn, hpushed]; exact h.later
  pushed := by rw [hreceiver, hconn, hpushed]; exact h.pushed

/-- Without a connection, or until one is there. -/
theorem ReceiveInv.rests {conn : Nat} (h : ReceiveInv l)
    (hlive : ¬ Live l.receiver) (hsafe : SafeInv r)
    (hrests : Rests l.receiver r) (hmoves : l.receiverMoves conn r = some l') :
    ReceiveInv l' := by
  have hstill := hrests.still
  simp only [receiverMoves, hstill.got, hstill.pushed, List.drop_length,
    record_nil, List.nil_prefix, if_true, hlive, not_false_eq_true,
    and_true] at hmoves
  split at hmoves
  · next hr =>
      obtain ⟨hlt, he⟩ := Option.ite_none_right_eq_some.mp hmoves
      cases he
      exact
        { safe := hsafe
          stream := hrests.streamInv
          framed := h.framed
          live := by
            -- The decoder starts over: nothing has been seen or pushed in
            -- this connection.
            intro haborted _
            have hclean : Clean r := hrests.clean haborted (by simp [hr.2])
            refine ⟨r.pushed, [], .of_initial hclean.decoder, ?_, ?_, ?_⟩
            · simp [h.later conn hlt]
            · simp [hclean.inbound]
            · simp [hclean.inbound]
          later := fun k hk => h.later k (Nat.lt_trans hlt hk)
          pushed := by
            rw [history_of_empty (Nat.le_of_lt hlt) h.later]
            exact hstill.pushed.trans h.pushed }
  · next hr =>
      cases hmoves
      exact
        { safe := hsafe
          stream := hrests.streamInv
          framed := h.framed
          live := fun _ hlive' => (hr hlive').elim
          later := h.later
          pushed := hstill.pushed.trans h.pushed }

theorem prefix_append_of_drop {α : Type} {p b w : List α}
    (hp : p <+: w) (hb : b <+: w.drop p.length) : p ++ b <+: w := by
  obtain ⟨rest, rfl⟩ := hp
  rw [List.drop_left] at hb
  exact (List.prefix_append_right_inj p).mpr hb

theorem ReceiveInv.passed {conn : Nat} (h : ReceiveInv l)
    (haborted : l.receiver.aborted = false) (hlive : Live l.receiver)
    (hsafe : SafeInv r) (hpassed : Passed l.receiver r)
    (hmoves : l.receiverMoves conn r = some l') : ReceiveInv l' := by
  have hbuf := h.stream.live haborted hlive
  obtain ⟨base, seen, hparsed, hbase, hpre, hlen⟩ := h.live haborted hlive
  obtain ⟨e₁, hflow, hstill, hsame⟩ := hpassed.flow
  obtain ⟨bytes, hgot, hinto⟩ := hflow.into hbuf
  obtain ⟨more, hparsed', hin⟩ := hinto base seen hparsed
  obtain ⟨new, hnew⟩ := hflow.pushed
  simp only [receiverMoves, hstill.got, hstill.pushed, hgot, ← hnew,
    List.drop_left, hlive, not_true_eq_false, and_false, if_false] at hmoves
  obtain ⟨hnext, he⟩ := Option.ite_none_right_eq_some.mp hmoves
  cases he
  -- The bytes the decoder has seen by now, and those held, are what was taken.
  have htaken : seen ++ more ++ e₁.inbound =
      seen ++ l.receiver.inbound ++ bytes := by
    rw [List.append_assoc, ← hin, List.append_assoc]
  have hpre' : seen ++ more ++ e₁.inbound <+: l.wire l.receiverConn := by
    rw [hlen] at hnext
    rw [htaken]
    exact prefix_append_of_drop hpre hnext
  have hpushed : e₁.pushed = base ++ (l.pushedOn l.receiverConn ++ new) := by
    rw [← hnew, hbase, List.append_assoc]
  exact
    { safe := hsafe
      stream := hpassed.streamInv hbuf
      framed := by
        intro k
        by_cases hk : k = l.receiverConn
        · obtain ⟨frames, ms, rest, hseen, hms, hframed, _⟩ := hparsed'
          have heq : ms = l.pushedOn l.receiverConn ++ new :=
            List.append_cancel_left (hms.symm.trans hpushed)
          rw [hk]
          simp only [record_self]
          refine ⟨frames, heq ▸ hframed, ?_⟩
          rw [hseen, List.append_assoc] at hpre'
          exact (List.prefix_append _ _).trans hpre'
        · simp only [record_of_ne hk]
          exact h.framed k
      live := by
        intro hs hl
        have hs : r = e₁ := hsame hs hl
        subst hs
        refine ⟨base, seen ++ more, hparsed', ?_, hpre', ?_⟩
        · simp only [record_self]
          exact hpushed
        · simp only [htaken, hlen, List.length_append]
      later := by
        intro k hk
        simp only [record_of_ne (Nat.ne_of_gt hk)]
        exact h.later k hk
      pushed := by
        rw [history_record]
        show r.pushed = _
        rw [hstill.pushed, ← hnew, h.pushed] }

/-! ## Both -/

section Step

variable [Mux μ] [IDemux δ] [Mux μ'] [IDemux δ']

omit [Mux μ'] [IDemux δ'] in
theorem SendInv.sender {act : EngineAct μ δ} (h : SendInv l)
    (hok : l.sender.InConnection act) (hs : l.sender.step act = some s) :
    SendInv (l.senderMoves s) := by
  have hsafe := h.safe.step hok.headSafe hs
  by_cases hlive : Live l.sender
  · exact h.passed (Step.of_step hs).1 hlive hsafe (hlive.passed hs)
  · exact h.rests hlive hsafe (h.stream.rests h.safe hok hlive hs)

omit [Mux μ] [IDemux δ] in
theorem ReceiveInv.receiver {act : EngineAct μ' δ'} {conn : Nat}
    (h : ReceiveInv l) (hok : l.receiver.InConnection act)
    (hs : l.receiver.step act = some r)
    (hmoves : l.receiverMoves conn r = some l') : ReceiveInv l' := by
  have hsafe := h.safe.step hok.headSafe hs
  by_cases hlive : Live l.receiver
  · exact h.passed (Step.of_step hs).1 hlive hsafe (hlive.passed hs) hmoves
  · exact h.rests hlive hsafe (h.stream.rests h.safe hok hlive hs) hmoves

omit [Mux μ] [IDemux δ] [Mux μ'] [IDemux δ'] in
theorem SendInv.receiverMoves {conn : Nat} (h : SendInv l)
    (hmoves : l.receiverMoves conn r = some l') :
    SendInv l' := by
  unfold Link.receiverMoves at hmoves
  dsimp only at hmoves
  split at hmoves
  · split at hmoves
    · obtain ⟨_, he⟩ := Option.ite_none_right_eq_some.mp hmoves
      cases he
      exact { h with }
    · cases hmoves
      exact { h with }
  · cases hmoves

/-- Both halves. -/
structure Inv (l : Link μ δ μ' δ') : Prop where
  send : SendInv l
  receive : ReceiveInv l

theorem Inv.step {act : LinkAct μ δ μ' δ'} (h : Inv l)
    (hok : InConnection l act) (hs : step l act = some l') : Inv l' := by
  cases act with
  | sender act =>
      obtain ⟨s, hstep, he⟩ := Option.map_eq_some_iff.mp hs
      subst he
      exact
        { send := h.send.sender hok hstep
          receive := h.receive.grow (prefix_record _ _ _) rfl rfl rfl rfl }
  | receiver act conn =>
      obtain ⟨r, hstep, hmoves⟩ := Option.bind_eq_some_iff.mp hs
      exact
        { send := h.send.receiverMoves hmoves
          receive := h.receive.receiver hok hstep hmoves }

omit [Mux μ] [IDemux δ] [Mux μ'] [IDemux δ'] in
theorem Inv.create (hs : Created s) (hr : Created r) : Inv (create s r) where
  send :=
    { safe := .created hs
      stream := hs.fresh.streamInv
      wire := fun _ => List.prefix_refl _
      live := fun _ hlive => (hs.fresh.idle hlive).elim
      later := fun _ _ => ⟨rfl, rfl⟩
      sent := hs.fresh.sent
      pulled := hs.fresh.pulled }
  receive :=
    { safe := .created hr
      stream := hr.fresh.streamInv
      framed := fun _ => ⟨[], .nil, List.prefix_refl _⟩
      live := fun _ hlive => (hr.fresh.idle hlive).elim
      later := fun _ _ => rfl
      pushed := hr.fresh.pushed }

/-- For every run of the two engines over connections that may break at any
byte, with any refusals of the receiving demux: the bytes the socket accepts in
a connection start the encoding of the messages pulled in it, which are a
contiguous run of all those pulled; and what the receiver pushes in a
connection are the first of these messages, so that all it pushes is an ordered
part of what was pulled. -/
theorem transfer {s : BpTcpEngine μ δ} {r : BpTcpEngine μ' δ'}
    (hs : Created s) (hr : Created r) {as : List (LinkAct μ δ μ' δ')}
    (hrun : Run step InConnection (create s r) as l)
    (hlen : ∀ m ∈ l.sender.pulled, m.length < 2 ^ 64) :
    (l.sender.sent = history l.wire l.senderConn ∧
      l.sender.pulled = history l.pulledOn l.senderConn ∧
      ∀ k, l.wire k <+: bpEncode (l.pulledOn k)) ∧
    (l.receiver.pushed = history l.pushedOn l.receiverConn ∧
      (∀ k, l.pushedOn k <+: l.pulledOn k) ∧
      l.receiver.pushed.Sublist l.sender.pulled) := by
  have hinv : Inv l := hrun.invariant (fun _ _ _ hI hok hs => hI.step hok hs)
    (Inv.create hs hr)
  have hpushed : ∀ k, l.pushedOn k <+: l.pulledOn k := by
    intro k
    obtain ⟨bytes, hframed, hpre⟩ := hinv.receive.framed k
    have hk : ∀ m ∈ l.pulledOn k, m.length < 2 ^ 64 := by
      intro m hm
      apply hlen
      rw [hinv.send.pulled]
      exact mem_history (fun k hk => (hinv.send.later k hk).2) hm
    exact (hframed.prefix_of_bpEncode hk
      (hpre.trans (hinv.send.wire k))).2
  refine ⟨⟨hinv.send.sent, hinv.send.pulled, hinv.send.wire⟩,
    hinv.receive.pushed, hpushed, ?_⟩
  rw [hinv.receive.pushed, hinv.send.pulled]
  exact history_sublist_of_empty hpushed fun k hk => (hinv.send.later k hk).2

end Step

/-- The connection breaks in the middle of a message whose beginning has
reached the receiver.  Both engines wait and try again.  In the new connection
the demux refuses a message until a `head` makes room for it. -/
def breakRun : List (LinkAct (List Message) Unit (List Message) Nat) :=
  [.sender (.register (calm [])), .sender (.outEvent (calm [])),
    .receiver (.register (calm [])) 0, .receiver (.outEvent (calm [])) 1,
    .sender (.outEvent (calm [])), .receiver (.inEvent (calm [2, 1])) 0,
    .receiver (.inEvent (calm [2, 1])) 0, .sender (.outEvent broken),
    .receiver (.inEvent broken) 0, .sender (.timer (calm [])),
    .sender (.outEvent (calm [])), .sender (.pipes [[4], []] ()),
    .sender (.outEvent (calm [])), .receiver (.timer (calm [])) 0,
    .receiver (.outEvent (calm [])) 2, .receiver (.inEvent (calm [1, 4, 0])) 0,
    .receiver (.head 5 (calm [])) 0]

theorem transfer_over_break :
    ∃ l, Run step InConnection
        (create (connecter 4 8 [[1, 2], [3]] () (some 3) 0)
          (connecter 4 8 [] 1 (some 3) 0)) breakRun l ∧
      l.sender.pulled = [[1, 2], [3], [4], []] ∧
      l.wire 1 = [2, 1, 2, 1] ∧ l.wire 2 = [1, 4, 0] ∧
      l.receiver.pushed = [[1, 2], [4], []] ∧
      l.receiver.pushed.Sublist l.sender.pulled := by
  refine Run.exists_of_exec (by decide +kernel) fun l hrun hs =>
    ⟨And.left hs, And.left (And.right hs), And.left (And.right (And.right hs)),
      And.right (And.right (And.right hs)), ?_⟩
  have hlen : ∀ m ∈ l.sender.pulled, m.length < 2 ^ 64 := by
    rw [hs.1]
    decide
  exact (transfer (.connecter ..) (.connecter ..) hrun hlen).2.2.2

end Link

end ZeroMQ
