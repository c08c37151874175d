import ZeroMQ.Message.Mux
import ZeroMQ.Pipe.Fifo

/-!
# `api_thread_t::fetch_message`

An API thread receives from several queues (`libzmq/api_thread.cpp`).  Each
queue has a mux over its pipes and a flag that tells whether messages are
received from it; a mask tells which types of messages the caller wants to see.
`fetch_message` looks at the queues in turn, starting behind the one that had
the last message, and drops the messages the mask does not have.

A call is one step here: it sees the contents the pipes have when it is made,
and the pipes' threads are free to move between two calls.  `served` is a
history: the queues messages were returned from.

## Main results

* `fetchQueue_spec`, `fetchQueue_ready` — the inner loop drops the messages out
  of the mask until it finds one in the mask or the mux has no more, and it
  ends.
* `fetchLoop_scan` — the outer loop is a search of the ring of queues.
* `fetch_message_fair` — over every sequence of calls: what the result means,
  that nothing but notifications out of the mask is dropped, and that no queue
  is starved.
-/

namespace ZeroMQ

open ZeroMQ.Lib

variable {M : Type} {i : Nat}

/-! ## Message types -/

/-- `message_data`. -/
def messageData : UInt32 := (1 : UInt32) <<< (0 : UInt32)

/-- `message_t::type`. -/
def RawMsg.type (msg : RawMsg M) : UInt32 :=
  (1 : UInt32) <<< (rawMessageType msg).toUInt32

/-- `(message_->type () & message_mask) != 0`. -/
def RawMsg.passes (mask : UInt32) (msg : RawMsg M) : Bool :=
  msg.type &&& mask != 0

/-- A mask with `message_data` lets every data message pass. -/
theorem RawMsg.passes_data {mask : UInt32} (hmask : messageData &&& mask ≠ 0)
    (d : M) : (RawMsg.data d).passes mask = true := by
  simpa [passes, type, rawMessageType, messageData] using hmask

/-! ## What a pipe loses -/

/-- The pipe has lost the messages `got`, and nothing else but delimiters;
what was available and is not in `got` still is. -/
structure PipeSys.Lost (got : List (RawMsg M)) (p p' : PipeSys M) : Prop where
  core : p.pipe.coreMsgs.filter RawMsg.payload =
    got ++ p'.pipe.coreMsgs.filter RawMsg.payload
  available : ∀ msg ∈ p.available, msg ∈ got ∨ msg ∈ p'.available

section Lost

variable {p p' p'' : PipeSys M} {got got' : List (RawMsg M)} {msg : RawMsg M}

theorem PipeSys.Lost.refl (p : PipeSys M) : Lost [] p p :=
  ⟨rfl, fun _ h => .inr h⟩

theorem PipeSys.Lost.trans (h : Lost got p p') (h' : Lost got' p' p'') :
    Lost (got ++ got') p p'' := by
  refine ⟨by rw [h.core, h'.core, List.append_assoc], ?_⟩
  intro msg hmsg
  rcases h.available msg hmsg with hgot | hleft
  · exact .inl (List.mem_append_left _ hgot)
  · rcases h'.available msg hleft with hgot | hleft
    · exact .inl (List.mem_append_right _ hgot)
    · exact .inr hleft

theorem PipeSys.Taken.lost (h : Taken msg p p') : Lost [msg] p p' := by
  have hpay : msg.payload = true := by
    rw [RawMsg.payload, h.payload]
    rfl
  refine ⟨by simp [h.core, hpay], ?_⟩
  intro m hm
  rw [h.available] at hm
  simpa using hm

theorem PipeSys.Skipped.lost (h : Skipped p p') : Lost [] p p' := by
  refine ⟨?_, by simp [h.available]⟩
  rcases h.core with hcore | hcore
  · rw [hcore, List.nil_append]
  · rw [hcore]
    rfl

end Lost

section Read

variable {m m' : MuxState M} {msg : RawMsg M} {p : PipeSys M} {j q : Nat}

theorem MuxState.ReadFrom.lost (h : m.ReadFrom j msg m')
    (hp : m.pipes[q]? = some p) :
    ∃ p' got, m'.pipes[q]? = some p' ∧ PipeSys.Lost got p p' ∧
      got.Sublist [msg] := by
  have hq := (List.getElem?_eq_some_iff.mp hp).1
  by_cases hpos : q = (m.current + j) % m.pipes.length
  · subst hpos
    obtain ⟨x, x', hx, hx', htaken⟩ := h.taken
    rw [hp, Option.some.injEq] at hx
    exact ⟨x', [msg], hx', hx ▸ htaken.lost, .refl _⟩
  · obtain ⟨x, x', hx, hx', hcase⟩ := h.others q hq hpos
    rw [hp, Option.some.injEq] at hx
    subst hx
    refine ⟨x', [], hx', ?_, List.nil_sublist _⟩
    split at hcase
    · exact hcase.lost
    · exact hcase ▸ .refl p

theorem MuxState.ReadNone.lost (h : m.ReadNone m')
    (hp : m.pipes[q]? = some p) :
    ∃ p', m'.pipes[q]? = some p' ∧ PipeSys.Lost [] p p' ∧
      p.available = [] := by
  obtain ⟨x, x', hx, hx', hskip⟩ :=
    h.skipped q (List.getElem?_eq_some_iff.mp hp).1
  rw [hp, Option.some.injEq] at hx
  subst hx
  exact ⟨x', hx', hskip.lost, hskip.available⟩

end Read

/-! ## Reading one queue -/

/-- `m` yields the messages `msgs` in so many reads, and is then `m'`. -/
inductive Yields : MuxState M → List (RawMsg M) → MuxState M → Prop where
  | nil (m : MuxState M) : Yields m [] m
  | cons {m m' m'' : MuxState M} {zero old msg : RawMsg M}
      {msgs : List (RawMsg M)} (h : m.read zero old = some (true, msg, m'))
      (rest : Yields m' msgs m'') : Yields m (msg :: msgs) m''

/-- The queue's mux has yielded `dropped`, none of which pass the mask, and
then `msg`, which does. -/
structure Fetched (mask : UInt32) (dropped : List (RawMsg M)) (msg : RawMsg M)
    (m m' : MuxState M) : Prop where
  yields : Yields m (dropped ++ [msg]) m'
  dropped : ∀ d ∈ dropped, d.passes mask = false
  passes : msg.passes mask = true

/-- The queue's mux has yielded `dropped`, none of which pass the mask, and
then had no more. -/
structure Emptied (mask : UInt32) (dropped : List (RawMsg M))
    (m m' : MuxState M) : Prop where
  yields : ∃ m₁ zero old, Yields m dropped m₁ ∧
    m₁.read zero old = some (false, zero, m')
  dropped : ∀ d ∈ dropped, d.passes mask = false

/-- The inner loop of `fetch_message`, for at most `fuel` reads: whether a
message was found, the message and the mux. -/
def fetchQueue (zero : RawMsg M) (mask : UInt32) : Nat → MuxState M →
    RawMsg M → Option (Bool × RawMsg M × MuxState M)
  | 0, _, _ => none
  | fuel + 1, m, msg =>
      (m.read zero msg).bind fun (retrieved, msg', m') =>
        if retrieved then
          if msg'.passes mask then some (true, msg', m')
          else fetchQueue zero mask fuel m' msg'
        else some (false, msg', m')

section Queue

variable {m m' m'' : MuxState M} {msg msg' zero : RawMsg M} {b : Bool}
  {mask : UInt32} {msgs dropped : List (RawMsg M)} {fuel : Nat}

theorem Yields.inv (h : Yields m msgs m') (hinv : m.Inv) : m'.Inv := by
  induction h with
  | nil m => exact hinv
  | cons hread rest ih => exact ih (hinv.read hread).1

/-- What the pipes have lost is among the messages the mux has yielded. -/
theorem Yields.lost {q : Nat} {p : PipeSys M} (h : Yields m msgs m')
    (hinv : m.Inv) (hp : m.pipes[q]? = some p) :
    ∃ p' got, m'.pipes[q]? = some p' ∧ PipeSys.Lost got p p' ∧
      got.Sublist msgs := by
  induction h generalizing p with
  | nil m => exact ⟨p, [], hp, .refl p, .refl _⟩
  | cons hread rest ih =>
      obtain ⟨j, hfrom⟩ := MuxState.read_true hinv hread
      obtain ⟨p₁, got₁, hp₁, hlost₁, hsub₁⟩ := hfrom.lost hp
      obtain ⟨p', got, hp', hlost, hsub⟩ := ih (hinv.read hread).1 hp₁
      exact ⟨p', got₁ ++ got, hp', hlost₁.trans hlost, hsub₁.append hsub⟩

/-- A pipe of an emptied queue had nothing available that passes the mask. -/
theorem Emptied.lost {q : Nat} {p : PipeSys M} (h : Emptied mask dropped m m')
    (hinv : m.Inv) (hp : m.pipes[q]? = some p) :
    (∀ msg ∈ p.available, msg.passes mask = false) ∧
      ∃ p' got, m'.pipes[q]? = some p' ∧ PipeSys.Lost got p p' ∧
        got.Sublist dropped := by
  obtain ⟨m₁, zero, old, hyields, hlast⟩ := h.yields
  obtain ⟨p₁, got, hp₁, hlost, hsub⟩ := hyields.lost hinv hp
  obtain ⟨-, hnone⟩ := MuxState.read_false (hyields.inv hinv) hlast
  obtain ⟨p', hp', hlost', hnil⟩ := hnone.lost hp₁
  refine ⟨?_, p', got, hp', ?_, hsub⟩
  · intro msg hmsg
    rcases hlost.available msg hmsg with hgot | hleft
    · exact h.dropped msg (hsub.subset hgot)
    · rw [hnil] at hleft
      cases hleft
  · simpa using hlost.trans hlost'

theorem fetchQueue_spec (hinv : m.Inv)
    (h : fetchQueue zero mask fuel m msg = some (b, msg', m')) :
    ∃ dropped,
      if b then Fetched mask dropped msg' m m'
      else Emptied mask dropped m m' ∧ msg' = zero := by
  induction fuel generalizing m msg with
  | zero => cases h
  | succ fuel ih =>
      rw [fetchQueue] at h
      obtain ⟨⟨retrieved, msg₁, m₁⟩, hread, h⟩ :=
        Option.bind_eq_some_iff.mp h
      cases retrieved with
      | false =>
          cases h
          obtain ⟨rfl, -⟩ := MuxState.read_false hinv hread
          exact ⟨[], ⟨⟨m, msg', msg, .nil m, hread⟩, by simp⟩, rfl⟩
      | true =>
          by_cases hpass : msg₁.passes mask = true
          · simp only [if_true, hpass] at h
            cases h
            exact ⟨[], .cons hread (.nil m'), by simp, hpass⟩
          · simp only [if_true, hpass] at h
            obtain ⟨dropped, hspec⟩ := ih (hinv.read hread).1 h
            have hmore : ∀ d ∈ msg₁ :: dropped, d.passes mask = false ∨
                d ∈ dropped := by
              intro d hd
              rcases List.mem_cons.mp hd with rfl | hd
              · exact .inl (by simpa using hpass)
              · exact .inr hd
            refine ⟨msg₁ :: dropped, ?_⟩
            cases b with
            | true =>
                have hf : Fetched mask dropped msg' m₁ m' := hspec
                exact ⟨.cons hread hf.yields,
                  fun d hd => (hmore d hd).elim id (hf.dropped d), hf.passes⟩
            | false =>
                obtain ⟨he, rfl⟩ : Emptied mask dropped m₁ m' ∧
                  msg' = zero := hspec
                obtain ⟨m₂, z, old, hyields, hlast⟩ := he.yields
                exact ⟨⟨⟨m₂, z, old, .cons hread hyields, hlast⟩,
                  fun d hd => (hmore d hd).elim id (he.dropped d)⟩, rfl⟩

/-- The inner loop ends: every round takes a message from the pipes. -/
theorem fetchQueue_ready (zero : RawMsg M) (mask : UInt32) (hinv : m.Inv)
    (hready : ∀ p ∈ m.pipes, p.Ready) (hfuel : m.unread < fuel)
    (msg : RawMsg M) :
    ∃ b msg' m', fetchQueue zero mask fuel m msg = some (b, msg', m') ∧
      ∀ p ∈ m'.pipes, p.Ready := by
  induction fuel generalizing m msg with
  | zero => omega
  | succ fuel ih =>
      obtain ⟨retrieved, msg₁, m₁, hread, hready₁⟩ :=
        MuxState.read_ready hinv hready zero msg
      rw [fetchQueue, hread, Option.bind_some]
      cases retrieved with
      | false => exact ⟨false, msg₁, m₁, rfl, hready₁⟩
      | true =>
          have hless := MuxState.unread_read hinv hread
          by_cases hpass : msg₁.passes mask = true
          · exact ⟨true, msg₁, m₁, by simp [hpass], hready₁⟩
          · obtain ⟨b, msg', m', hrest, hready'⟩ :=
              ih (hinv.read hread).1 hready₁ (by omega) msg₁
            exact ⟨b, msg', m', by simpa [hpass] using hrest, hready'⟩

theorem Fetched.inv (h : Fetched mask dropped msg m m') (hinv : m.Inv) :
    m'.Inv :=
  h.yields.inv hinv

theorem Emptied.inv (h : Emptied mask dropped m m') (hinv : m.Inv) :
    m'.Inv := by
  obtain ⟨m₁, zero, old, hyields, hlast⟩ := h.yields
  exact ((hyields.inv hinv).read hlast).1

end Queue

/-! ## The thread -/

/-- `api_thread_t::queue_t`: the flag, and the mux of the queue's engine. -/
structure ApiQueue (M : Type) where
  consume : Bool
  mux : MuxState M

/-- The members of `api_thread_t` that `fetch_message` uses. -/
structure ApiThread (M : Type) where
  queues : List (ApiQueue M)
  currentQueue : Nat
  messageMask : UInt32

namespace ApiThread

/-- The constructor. -/
def create : ApiThread M :=
  { queues := [], currentQueue := 0, messageMask := messageData }

/-- `mask`. -/
def mask (t : ApiThread M) (notifications : UInt32) : ApiThread M :=
  { t with messageMask := notifications ||| messageData }

/-- `create_queue`. -/
def createQueue (t : ApiThread M) : ApiThread M :=
  { t with queues := t.queues ++ [⟨true, ⟨[], 0⟩⟩] }

/-- `consume`; it asserts that there is such a queue. -/
def consume (t : ApiThread M) (queueId : Nat) (enabled : Bool) :
    Option (ApiThread M) :=
  if 0 < queueId ∧ queueId ≤ t.queues.length then
    some { t with
      queues := t.queues.modify (queueId - 1) fun q =>
        { q with consume := enabled } }
  else none

/-- `current_queue`, moved to the next queue. -/
def nextQueue (t : ApiThread M) : Nat :=
  if t.currentQueue + 1 = t.queues.length then 0 else t.currentQueue + 1

/-- The outer loop of `fetch_message`, for `i` more queues: the result, the
message and the thread. -/
def fetchLoop (zero : RawMsg M) : Nat → ApiThread M → RawMsg M →
    Option (Nat × RawMsg M × ApiThread M)
  | 0, t, msg => some (0, msg, t)
  | i + 1, t, msg =>
      t.queues[t.nextQueue]?.bind fun q =>
        if !q.consume then
          fetchLoop zero i { t with currentQueue := t.nextQueue } msg
        else
          (fetchQueue zero t.messageMask (q.mux.unread + 1) q.mux msg).bind
            fun (found, msg', m) =>
              let t' : ApiThread M :=
                { t with
                  queues := t.queues.set t.nextQueue { q with mux := m }
                  currentQueue := t.nextQueue }
              if found then some (t.nextQueue + 1, msg', t')
              else fetchLoop zero i t' msg'

/-- `fetch_message`.  `zero` is the 0-byte message a mux without messages makes
of the output parameter. -/
def fetchMessage (zero : RawMsg M) (t : ApiThread M) (msg : RawMsg M) :
    Option (Nat × RawMsg M × ApiThread M) :=
  t.fetchLoop zero t.queues.length msg

/-- The invariant: `current_queue` is a valid index, if there is one, the muxes
are sound, and data messages pass the mask. -/
structure Inv (t : ApiThread M) : Prop where
  cursor : RingIndex t.queues.length t.currentQueue
  muxes : ∀ q ∈ t.queues, q.mux.Inv
  mask : messageData &&& t.messageMask ≠ 0

/-- The queue was tried and had nothing for the caller: messages are not
received from it, and then it is as it was, or it had nothing that passes the
mask. -/
def Passed (mask : UInt32) (q q' : ApiQueue M) : Prop :=
  if q.consume then
    q'.consume = true ∧ ∃ dropped, Emptied mask dropped q.mux q'.mux
  else q' = q

/-- The message was received from the queue. -/
def Served (mask : UInt32) (msg : RawMsg M) (q q' : ApiQueue M) : Prop :=
  q.consume = true ∧ q'.consume = true ∧
    ∃ dropped, Fetched mask dropped msg q.mux q'.mux

/-- Trying a queue. -/
def tryQueue (mask : UInt32) (q : ApiQueue M) (r : Option (RawMsg M))
    (q' : ApiQueue M) : Prop :=
  match r with
  | none => Passed mask q q'
  | some msg => Served mask msg q q'

variable {t t' : ApiThread M} {msg msg' zero : RawMsg M} {r : Nat}
  {q q' : ApiQueue M} {mask : UInt32}

theorem tryQueue_inv {r : Option (RawMsg M)}
    (h : tryQueue mask q r q') (hinv : q.mux.Inv) : q'.mux.Inv := by
  cases r with
  | none =>
      have hpassed : Passed mask q q' := h
      unfold Passed at hpassed
      split at hpassed
      · obtain ⟨-, dropped, hemptied⟩ := hpassed
        exact hemptied.inv hinv
      · exact hpassed ▸ hinv
  | some msg =>
      obtain ⟨-, -, dropped, hfetched⟩ : Served mask msg q q' := h
      exact hfetched.inv hinv

theorem nextQueue_eq (hc : t.currentQueue < t.queues.length) :
    t.nextQueue = (t.currentQueue + 1) % t.queues.length :=
  (ring_next hc).symm

/-- The outer loop is a search of the ring of queues, from the one behind
`current_queue` on. -/
theorem fetchLoop_scan (hinv : ∀ q ∈ t.queues, q.mux.Inv)
    (hc : t.currentQueue < t.queues.length)
    (h : t.fetchLoop zero i msg = some (r, msg', t')) :
    t'.messageMask = t.messageMask ∧
      ∃ pos, Scan (tryQueue t.messageMask) i
          ((t.currentQueue + 1) % t.queues.length) t.queues
          (if r = 0 then none else some msg') pos t'.queues ∧
        if r = 0 then
          (t'.currentQueue + 1) % t.queues.length = pos ∧
            t'.currentQueue < t.queues.length
        else r = pos + 1 ∧ t'.currentQueue = pos := by
  induction i generalizing t msg with
  | zero =>
      cases h
      exact ⟨rfl, _, .done _ _, rfl, hc⟩
  | succ i ih =>
      rw [fetchLoop] at h
      obtain ⟨q, hq, h⟩ := Option.bind_eq_some_iff.mp h
      have hlt := (List.getElem?_eq_some_iff.mp hq).1
      have hmux := hinv q (List.mem_of_getElem? hq)
      rw [← nextQueue_eq hc]
      by_cases hcons : q.consume = true
      · rw [if_neg (by simp [hcons])] at h
        obtain ⟨⟨found, msg₁, m⟩, hfetch, h⟩ := Option.bind_eq_some_iff.mp h
        obtain ⟨dropped, hspec⟩ := fetchQueue_spec hmux hfetch
        cases found with
        | true =>
            cases h
            refine ⟨rfl, t.nextQueue, ?_, by simp⟩
            rw [if_neg (by omega)]
            exact .hit hq ⟨hcons, hcons, dropped, hspec⟩
        | false =>
            obtain ⟨hemptied, -⟩ : Emptied _ dropped _ _ ∧ msg₁ = zero := hspec
            have htry : tryQueue t.messageMask q none { q with mux := m } := by
              show Passed _ _ _
              rw [Passed, if_pos hcons]
              exact ⟨hcons, dropped, hemptied⟩
            obtain ⟨hmask, pos, hscan, hend⟩ :=
              ih (forall_mem_set hinv (hemptied.inv hmux)) (by simpa using hlt) h
            simp only [List.length_set] at hscan hend
            exact ⟨hmask, pos, .pass hq htry (by simpa using hscan), hend⟩
      · have hdis : q.consume = false := by simpa using hcons
        rw [if_pos (by simp [hdis])] at h
        obtain ⟨hmask, pos, hscan, hend⟩ :=
          ih (t := { t with currentQueue := t.nextQueue }) hinv hlt h
        have htry : tryQueue t.messageMask q none q := by
          show Passed _ _ _
          rw [Passed, if_neg hcons]
        refine ⟨hmask, pos, .pass hq htry ?_, hend⟩
        have hset : t.queues.set t.nextQueue q = t.queues := by
          obtain ⟨hlt, hget⟩ := List.getElem?_eq_some_iff.mp hq
          rw [← hget, List.set_getElem_self]
        rwa [hset]

/-- The call has returned the message of the queue `j` places behind the one
after `current_queue`; the queues before it were passed over, and the others
were not touched. -/
structure FetchFrom (t : ApiThread M) (j : Nat) (msg : RawMsg M)
    (t' : ApiThread M) : Prop where
  lt : j < t.queues.length
  length : t'.queues.length = t.queues.length
  mask : t'.messageMask = t.messageMask
  current : t'.currentQueue = (t.currentQueue + 1 + j) % t.queues.length
  served : ∃ q q',
    t.queues[(t.currentQueue + 1 + j) % t.queues.length]? = some q ∧
    t'.queues[(t.currentQueue + 1 + j) % t.queues.length]? = some q' ∧
    Served t.messageMask msg q q'
  others : ∀ i < t.queues.length,
    i ≠ (t.currentQueue + 1 + j) % t.queues.length →
    ∃ q q', t.queues[i]? = some q ∧ t'.queues[i]? = some q' ∧
      if ringDist t.queues.length
          ((t.currentQueue + 1) % t.queues.length) i < j then
        Passed t.messageMask q q'
      else q' = q

/-- The call has passed over all queues. -/
structure FetchNone (t t' : ApiThread M) : Prop where
  length : t'.queues.length = t.queues.length
  mask : t'.messageMask = t.messageMask
  current : t'.currentQueue = t.currentQueue
  passed : ∀ i < t.queues.length, ∃ q q', t.queues[i]? = some q ∧
    t'.queues[i]? = some q' ∧ Passed t.messageMask q q'

theorem fetchMessage_empty (hnil : t.queues.length = 0)
    (h : t.fetchMessage zero msg = some (r, msg', t')) :
    r = 0 ∧ t' = t := by
  rw [fetchMessage, hnil, fetchLoop] at h
  cases h
  exact ⟨rfl, rfl⟩

theorem fetchMessage_from (hinv : t.Inv) (hr : r ≠ 0)
    (h : t.fetchMessage zero msg = some (r, msg', t')) :
    ∃ j, FetchFrom t j msg' t' ∧
      r = (t.currentQueue + 1 + j) % t.queues.length + 1 := by
  by_cases hnil : t.queues.length = 0
  · exact absurd (fetchMessage_empty hnil h).1 hr
  have hc := hinv.cursor.lt hnil
  obtain ⟨hmask, pos, hscan, hend⟩ := fetchLoop_scan hinv.muxes hc h
  rw [if_neg hr] at hscan hend
  obtain ⟨j, hj, hpos, hserved, hothers⟩ := hscan.found_cells (Nat.le_refl _)
  rw [Nat.mod_add_mod] at hpos
  subst hpos
  exact ⟨j, ⟨hj, hscan.length_eq, hmask, hend.2, hserved, hothers⟩, hend.1⟩

theorem fetchMessage_none (hinv : t.Inv)
    (h : t.fetchMessage zero msg = some (0, msg', t')) : FetchNone t t' := by
  by_cases hnil : t.queues.length = 0
  · obtain ⟨-, rfl⟩ := fetchMessage_empty hnil h
    exact ⟨rfl, rfl, rfl, fun i hi => by omega⟩
  have hc := hinv.cursor.lt hnil
  have hc' : (t.currentQueue + 1) % t.queues.length < t.queues.length :=
    Nat.mod_lt _ (by omega)
  obtain ⟨hmask, pos, hscan, hend⟩ := fetchLoop_scan hinv.muxes hc h
  rw [if_pos rfl] at hscan hend
  obtain ⟨hpos, hlen, hall⟩ := hscan.missed_all hc'
  refine ⟨hlen, hmask, ?_, ?_⟩
  · -- both are the place before the one where the search began
    have hnext := hend.1.trans hpos
    rw [ring_next hc, ring_next hend.2] at hnext
    split at hnext <;> split at hnext <;> omega
  · intro i hi
    obtain ⟨x, x', hx, hcell, hx'⟩ := hall i hi
    exact ⟨x, x', hx, hx', hcell⟩

theorem Inv.fetchMessage (hinv : t.Inv)
    (h : t.fetchMessage zero msg = some (r, msg', t')) : t'.Inv := by
  by_cases hnil : t.queues.length = 0
  · exact (fetchMessage_empty hnil h).2 ▸ hinv
  obtain ⟨hmask, pos, hscan, -⟩ :=
    fetchLoop_scan hinv.muxes (hinv.cursor.lt hnil) h
  refine ⟨?_, hscan.forall_cells (fun _ _ _ hx ht => tryQueue_inv ht hx)
    hinv.muxes, hmask ▸ hinv.mask⟩
  rw [hscan.length_eq]
  by_cases hr : r = 0
  · subst hr
    rw [(fetchMessage_none hinv h).current]
    exact hinv.cursor
  · obtain ⟨j, hfrom, -⟩ := fetchMessage_from hinv hr h
    rw [hfrom.current]
    exact .of_mod _ hnil

/-- The queues messages are received from have pipes that are ready to be
read. -/
def Ready (t : ApiThread M) : Prop :=
  ∀ q ∈ t.queues, q.consume = true → ∀ p ∈ q.mux.pipes, p.Ready

theorem fetchLoop_ready (hc : RingIndex t.queues.length t.currentQueue)
    (hi : i ≤ t.queues.length) (hinv : ∀ q ∈ t.queues, q.mux.Inv)
    (hready : t.Ready) (msg : RawMsg M) :
    (t.fetchLoop zero i msg).isSome = true := by
  induction i generalizing t msg with
  | zero => rfl
  | succ i ih =>
      have hcur := hc.lt (by omega)
      have hlt : t.nextQueue < t.queues.length := by
        rw [nextQueue_eq hcur]
        exact Nat.mod_lt _ (by omega)
      have hmem := List.getElem_mem hlt
      rw [fetchLoop, List.getElem?_eq_getElem hlt, Option.bind_some]
      by_cases hcons : t.queues[t.nextQueue].consume = true
      · obtain ⟨found, msg', m, hfetch, hm⟩ := fetchQueue_ready
          zero t.messageMask (hinv _ hmem) (hready _ hmem hcons) (Nat.lt_succ_self _) msg
        rw [if_neg (by simp [hcons]), hfetch, Option.bind_some]
        cases found with
        | true => rfl
        | false =>
            obtain ⟨dropped, hspec⟩ := fetchQueue_spec (hinv _ hmem) hfetch
            obtain ⟨hemptied, -⟩ : Emptied _ dropped _ _ ∧ msg' = zero := hspec
            refine ih (.inl (by simpa using hlt)) (by simpa using by omega)
              (forall_mem_set hinv (hemptied.inv (hinv _ hmem))) ?_ msg'
            exact forall_mem_set hready fun _ => hm
      · rw [if_pos (by simp [hcons])]
        exact ih (t := { t with currentQueue := t.nextQueue }) (.inl hlt)
          (by show i ≤ t.queues.length; omega) hinv hready msg

/-- The pipes of the queue have lost nothing but `rest`, notifications out of
the mask, and delimiters. -/
def Drops (mask : UInt32) (rest : List (RawMsg M)) (q q' : ApiQueue M) : Prop :=
  ∀ (k : Nat) (p : PipeSys M), q.mux.pipes[k]? = some p →
    ∃ p' got dropped, q'.mux.pipes[k]? = some p' ∧ PipeSys.Lost got p p' ∧
      got.Sublist (dropped ++ rest) ∧
      ∀ d ∈ dropped, d.passes mask = false ∧ ∀ x, d ≠ .data x

theorem not_data_of_not_passes {d : RawMsg M}
    (hmask : messageData &&& mask ≠ 0) (hd : d.passes mask = false) :
    ∀ x, d ≠ .data x := by
  rintro x rfl
  rw [RawMsg.passes_data hmask] at hd
  cases hd

theorem Passed.drops (hmask : messageData &&& mask ≠ 0)
    (hinv : q.mux.Inv) (h : Passed mask q q') :
    Drops mask [] q q' ∧
      (q.consume = true → ∀ p ∈ q.mux.pipes, ∀ msg ∈ p.available,
        msg.passes mask = false) := by
  unfold Passed at h
  split at h
  · next hcons =>
      obtain ⟨-, dropped, hemptied⟩ := h
      constructor
      · intro k p hp
        obtain ⟨-, p', got, hp', hlost, hsub⟩ := hemptied.lost hinv hp
        refine ⟨p', got, dropped, hp', hlost, by simpa using hsub, ?_⟩
        intro d hd
        have hnot := hemptied.dropped d hd
        exact ⟨hnot, not_data_of_not_passes hmask hnot⟩
      · intro _ p hp msg hmsg
        obtain ⟨k, hk, rfl⟩ := List.getElem_of_mem hp
        exact (hemptied.lost hinv (List.getElem?_eq_getElem hk)).1 msg hmsg
  · next hcons =>
      subst h
      exact ⟨fun k p hp => ⟨p, [], [], hp, .refl p, List.nil_sublist _,
        by simp⟩, fun hc => absurd hc hcons⟩

theorem Served.drops (hmask : messageData &&& mask ≠ 0)
    (hinv : q.mux.Inv) (h : Served mask msg q q') : Drops mask [msg] q q' := by
  obtain ⟨-, -, dropped, hfetched⟩ := h
  intro k p hp
  obtain ⟨p', got, hp', hlost, hsub⟩ := hfetched.yields.lost hinv hp
  refine ⟨p', got, dropped, hp', hlost, hsub, ?_⟩
  intro d hd
  have hnot := hfetched.dropped d hd
  exact ⟨hnot, not_data_of_not_passes hmask hnot⟩

theorem FetchFrom.le_ringDist {t t' : ApiThread M} {msg : RawMsg M}
    {i j : Nat} {q : ApiQueue M} (h : t.FetchFrom j msg t') (hinv : t.Inv)
    (hq : t.queues[i]? = some q) (hcons : q.consume = true)
    (hdata : ∃ p ∈ q.mux.pipes, ∃ x, .data x ∈ p.available) :
    j ≤ ringDist t.queues.length
      ((t.currentQueue + 1) % t.queues.length) i := by
  have hlt := (List.getElem?_eq_some_iff.mp hq).1
  have hc : (t.currentQueue + 1) % t.queues.length < t.queues.length :=
    Nat.mod_lt _ (by omega)
  by_contra hd
  have hne : i ≠ (t.currentQueue + 1 + j) % t.queues.length := by
    rintro rfl
    have hdist := ringDist_add hc h.lt
    rw [Nat.mod_add_mod] at hdist
    omega
  obtain ⟨x, x', hx, -, hpassed⟩ := h.others i hlt hne
  rw [if_pos (by omega)] at hpassed
  rw [hq, Option.some.injEq] at hx
  subst hx
  obtain ⟨p, hp, d, hd'⟩ := hdata
  have hnot := (hpassed.drops hinv.mask
    (hinv.muxes q (List.mem_of_getElem? hq))).2 hcons p hp _ hd'
  rw [RawMsg.passes_data hinv.mask] at hnot
  cases hnot

end ApiThread

/-! ## Sequences of calls -/

/-- An API thread with the history of its calls: the places of the queues
messages were returned from. -/
structure ApiSys (M : Type) where
  api : ApiThread M
  served : List Nat

/-- The calls, and whatever happens to the pipes of a queue but for reads. -/
inductive ApiAct (M : Type) where
  | createQueue
  | consume (queueId : Nat) (enabled : Bool)
  | mask (notifications : UInt32)
  | fetch (zero msg : RawMsg M)
  | mux (i : Nat) (a : MuxAct M)

/-- Only `fetch_message` reads. -/
def MuxAct.isRead : MuxAct M → Bool
  | .read _ _ => true
  | _ => false

namespace ApiSys

/-- A new thread. -/
def start : ApiSys M := { api := .create, served := [] }

/-- One call, or one step of a queue's pipes. -/
def step (s : ApiSys M) : ApiAct M → Option (ApiSys M)
  | .createQueue => some { s with api := s.api.createQueue }
  | .consume queueId enabled =>
      (s.api.consume queueId enabled).map fun t => { s with api := t }
  | .mask notifications => some { s with api := s.api.mask notifications }
  | .fetch zero msg =>
      (s.api.fetchMessage zero msg).map fun (r, _, t) =>
        { api := t
          served := if r = 0 then s.served else s.served ++ [r - 1] }
  | .mux i a =>
      if a.isRead then none
      else
        s.api.queues[i]?.bind fun q =>
          (MuxSys.step { mux := q.mux, served := [] } a).map fun ms =>
            { s with
              api :=
                { s.api with
                  queues := s.api.queues.set i { q with mux := ms.mux } } }

variable {s s' t : ApiSys M} {a : ApiAct M} {as : List (ApiAct M)}

theorem inv_step (hinv : s.api.Inv) (hs : s.step a = some s') :
    s'.api.Inv := by
  cases a with
  | createQueue =>
      cases hs
      refine ⟨?_, ?_, hinv.mask⟩
      · have hgrow := hinv.cursor.grow
        simpa [ApiThread.createQueue] using hgrow
      · intro q hq
        rcases List.mem_append.mp hq with hq | hq
        · exact hinv.muxes q hq
        · rw [List.mem_singleton.mp hq]
          exact ⟨.inr ⟨rfl, rfl⟩, by simp⟩
  | consume queueId enabled =>
      obtain ⟨t, hc, rfl⟩ := Option.map_eq_some_iff.mp hs
      unfold ApiThread.consume at hc
      split at hc
      · cases hc
        refine ⟨by simpa using hinv.cursor, ?_, hinv.mask⟩
        intro q hq
        obtain ⟨k, hk, rfl⟩ := List.getElem_of_mem hq
        have hlt : k < s.api.queues.length := by simpa using hk
        have hmem := List.getElem_mem hlt
        rw [List.getElem_modify]
        split
        · exact hinv.muxes s.api.queues[k] hmem
        · exact hinv.muxes s.api.queues[k] hmem
      · cases hc
  | mask notifications =>
      cases hs
      refine ⟨hinv.cursor, hinv.muxes, ?_⟩
      intro hzero
      have hbit := congrArg (fun x => x.toBitVec.getLsbD 0) hzero
      simp [ApiThread.mask, messageData] at hbit
  | fetch zero msg =>
      obtain ⟨⟨r, msg', t⟩, hf, rfl⟩ := Option.map_eq_some_iff.mp hs
      exact hinv.fetchMessage hf
  | mux i a =>
      rw [step] at hs
      split at hs
      · cases hs
      · obtain ⟨q, hq, hs⟩ := Option.bind_eq_some_iff.mp hs
        obtain ⟨ms, hms, rfl⟩ := Option.map_eq_some_iff.mp hs
        have hmux := hinv.muxes q (List.mem_of_getElem? hq)
        exact ⟨by simpa using hinv.cursor, forall_mem_set hinv.muxes
          (MuxSys.inv_step (s := ⟨q.mux, []⟩) hmux hms), hinv.mask⟩

theorem inv_run (hrun : Run step Any (start : ApiSys M) as s) : s.api.Inv :=
  hrun.invariant (fun _ _ _ hinv _ hs => inv_step hinv hs)
    ⟨.inr ⟨rfl, rfl⟩, by simp [start, ApiThread.create],
      show messageData &&& messageData ≠ 0 by decide⟩

/-- A call of `fetch_message` from `s`, which leads to `t`: its result, the
message and the history. -/
inductive FetchStep (s : ApiSys M) : Nat → RawMsg M → ApiSys M → Prop where
  | message {t : ApiSys M} {msg : RawMsg M} (j : Nat)
      (hfrom : s.api.FetchFrom j msg t.api)
      (hserved : t.served = s.served ++
        [(s.api.currentQueue + 1 + j) % s.api.queues.length]) :
      FetchStep s ((s.api.currentQueue + 1 + j) % s.api.queues.length + 1)
        msg t
  | nothing {t : ApiSys M} {msg : RawMsg M} (hnone : s.api.FetchNone t.api)
      (hserved : t.served = s.served) : FetchStep s 0 msg t

theorem FetchStep.of_fetch {zero msg msg' : RawMsg M} {r : Nat}
    {api : ApiThread M} (hinv : s.api.Inv)
    (hf : s.api.fetchMessage zero msg = some (r, msg', api)) :
    ∃ t, s.step (.fetch zero msg) = some t ∧ t.api = api ∧
      FetchStep s r msg' t := by
  refine ⟨_, by rw [step, hf, Option.map_some], rfl, ?_⟩
  by_cases hr : r = 0
  · subst hr
    exact .nothing (ApiThread.fetchMessage_none hinv hf) rfl
  · obtain ⟨j, hfrom, rfl⟩ := ApiThread.fetchMessage_from hinv hr hf
    exact .message j hfrom rfl

theorem FetchStep.of_step {zero msg : RawMsg M} (hinv : s.api.Inv)
    (hs : s.step (.fetch zero msg) = some t) :
    ∃ r msg', FetchStep s r msg' t := by
  obtain ⟨⟨r, msg', api⟩, hf, -⟩ := Option.map_eq_some_iff.mp hs
  obtain ⟨t', hs', -, hstep⟩ := FetchStep.of_fetch hinv hf
  rw [hs, Option.some.injEq] at hs'
  exact ⟨r, msg', hs' ▸ hstep⟩

/-! ## Fairness -/

/-- The queue is enabled, and a data message is available in one of its
pipes. -/
def HasData (q : ApiQueue M) : Prop :=
  q.consume = true ∧ ∃ p ∈ q.mux.pipes, ∃ x, .data x ∈ p.available

/-- No queue is created, enabled or disabled, and the queue at `i` has a data
message available at every call. -/
def Steady (i : Nat) (s : ApiSys M) : ApiAct M → Prop
  | .fetch _ _ => ∃ q, s.api.queues[i]? = some q ∧ HasData q
  | .mask _ => True
  | .mux _ _ => True
  | .createQueue => False
  | .consume _ _ => False

/-- A test for `HasData`. -/
def hasData (q : ApiQueue M) : Bool :=
  q.consume && q.mux.pipes.any fun p => p.available.any fun msg =>
    rawMessageType msg == 0

theorem hasData_iff (q : ApiQueue M) : hasData q = true ↔ HasData q := by
  have hmsg : ∀ msg : RawMsg M,
      (rawMessageType msg == 0) = true ↔ ∃ x, msg = .data x := by
    intro msg
    cases msg <;> simp [rawMessageType]
  simp only [hasData, HasData, Bool.and_eq_true, List.any_eq_true, hmsg]
  constructor
  · rintro ⟨hcons, p, hp, msg, hmem, x, rfl⟩
    exact ⟨hcons, p, hp, x, hmem⟩
  · rintro ⟨hcons, p, hp, x, hmem⟩
    exact ⟨hcons, p, hp, .data x, hmem, x, rfl⟩

instance (i : Nat) (s : ApiSys M) (a : ApiAct M) : Decidable (Steady i s a) :=
  match a with
  | .fetch _ _ => decidable_of_iff (s.api.queues[i]?.any hasData = true) (by
      simp [Steady, Option.any_eq_true, hasData_iff])
  | .mask _ => .isTrue trivial
  | .mux _ _ => .isTrue trivial
  | .createQueue => .isFalse id
  | .consume _ _ => .isFalse id

/-- Since `s`, the queue at `i` has been served or has come closer with every
message. -/
def Turned (i : Nat) (s t : ApiSys M) : Prop :=
  t.api.queues.length = s.api.queues.length ∧
    ∃ got, t.served = s.served ++ got ∧
      Waiting s.api.queues.length i
        ((s.api.currentQueue + 1) % s.api.queues.length) got
        ((t.api.currentQueue + 1) % s.api.queues.length)

theorem Turned.step {u : ApiSys M} (h : Turned i s t) (hinv : t.api.Inv)
    (hok : Steady i t a) (hs : t.step a = some u) :
    Turned i s u := by
  obtain ⟨hlen, got, hserved, hwait⟩ := h
  cases a with
  | createQueue => exact hok.elim
  | consume queueId enabled => exact hok.elim
  | mask notifications =>
      cases hs
      exact ⟨hlen, got, hserved, hwait⟩
  | mux k a =>
      rw [ApiSys.step] at hs
      split at hs
      · cases hs
      · obtain ⟨q, hq, hs⟩ := Option.bind_eq_some_iff.mp hs
        obtain ⟨ms, -, rfl⟩ := Option.map_eq_some_iff.mp hs
        exact ⟨by simpa using hlen, got, hserved, hwait⟩
  | fetch zero msg =>
      obtain ⟨r, msg', hfetch⟩ := FetchStep.of_step hinv hs
      cases hfetch with
      | nothing hnone hsame =>
          exact ⟨hnone.length.trans hlen, got, hsame.trans hserved,
            hnone.current ▸ hwait⟩
      | message j hfrom hmore =>
          obtain ⟨q, hq, hdata⟩ := hok
          have hle := hfrom.le_ringDist hinv hq hdata.1 hdata.2
          have hi := (List.getElem?_eq_some_iff.mp hq).1
          rw [hlen] at hle hi
          have hturn := hwait.turn (Nat.mod_lt _ (by omega)) hi hle
          rw [Nat.mod_add_mod, Nat.add_assoc _ j 1, Nat.mod_add_mod] at hturn
          refine ⟨hfrom.length.trans hlen,
            got ++ [(t.api.currentQueue + 1 + j) % s.api.queues.length], ?_, ?_⟩
          · rw [hmore, hserved, List.append_assoc, hlen]
          · rw [hfrom.current, hlen, Nat.mod_add_mod]
            exact hturn

end ApiSys

open ApiThread ApiSys in
/-- `fetch_message` filters without losing data and without starving queues.
After every sequence of calls: it returns when the pipes are ready to be read;
with 0, every queue was passed over; otherwise with the number of the first
queue behind `current_queue`, in cyclic order, that was not, and the first
message of that queue's mux that passes the mask.  A queue that is passed over
is disabled and untouched, or no message available in it passes the mask.  The
pipes of the queues lose the message returned, notifications that do not pass
the mask, delimiters, and nothing else.  While no queue is created, enabled or
disabled, an enabled queue with a data message available at every call is
served within as many messages as there are queues. -/
theorem fetch_message_fair {as : List (ApiAct M)} {s : ApiSys M}
    (hrun : Run ApiSys.step Any .start as s) :
    (∀ zero msg, s.api.Ready →
      (s.api.fetchMessage zero msg).isSome = true) ∧
    (∀ zero msg r msg' api, s.api.fetchMessage zero msg = some (r, msg', api) →
      ∃ t, s.step (.fetch zero msg) = some t ∧ t.api = api ∧
        FetchStep s r msg' t) ∧
    (∀ q ∈ s.api.queues, ∀ q', Passed s.api.messageMask q q' →
      Drops s.api.messageMask [] q q' ∧
        (q.consume = false → q' = q) ∧
        (q.consume = true → ∀ p ∈ q.mux.pipes, ∀ msg ∈ p.available,
          msg.passes s.api.messageMask = false)) ∧
    (∀ q ∈ s.api.queues, ∀ msg q', Served s.api.messageMask msg q q' →
      Drops s.api.messageMask [msg] q q') ∧
    (∀ i < s.api.queues.length, ∀ bs t, Run ApiSys.step (Steady i) s bs t →
      s.served.length + s.api.queues.length ≤ t.served.length →
      ∃ got, t.served = s.served ++ got ∧ i ∈ got) := by
  have hinv := ApiSys.inv_run hrun
  refine ⟨?_, ?_, ?_, ?_, ?_⟩
  · intro zero msg hready
    exact fetchLoop_ready hinv.cursor (Nat.le_refl _) hinv.muxes hready msg
  · intro zero msg r msg' api hf
    exact FetchStep.of_fetch hinv hf
  · intro q hq q' hpassed
    obtain ⟨hdrops, hnone⟩ := hpassed.drops hinv.mask (hinv.muxes q hq)
    refine ⟨hdrops, fun hdis => ?_, hnone⟩
    rwa [ApiThread.Passed, if_neg (by simp [hdis])] at hpassed
  · intro q hq msg q' hserved
    exact hserved.drops hinv.mask (hinv.muxes q hq)
  · intro i hi bs t hsteady hlen
    have hfinal : Turned i s t ∧ t.api.Inv :=
      hsteady.invariant (I := fun u => Turned i s u ∧ u.api.Inv)
        (fun _ _ _ h hok hs => ⟨h.1.step h.2 hok hs, ApiSys.inv_step h.2 hs⟩)
        ⟨⟨rfl, [], by simp, .start _ _ _⟩, hinv⟩
    obtain ⟨⟨-, got, hserved, hwait⟩, -⟩ := hfinal
    rw [hserved, List.length_append] at hlen
    exact ⟨got, hserved,
      hwait.served (Nat.mod_lt _ (by omega)) hi (by omega)⟩

/-- Three queues, the first of which is disabled; the others have data
messages, and the third is among the three served next. -/
theorem fetch_message_fair_three_queues :
    ∃ (s t : ApiSys Nat) (got : List Nat),
      Run ApiSys.step Any .start
        [.createQueue, .createQueue, .createQueue, .consume 1 false,
          .mask 2, .mux 1 (attachFilled 3), .mux 2 (attachFilled 3)] s ∧
      Run ApiSys.step (ApiSys.Steady 2) s
        (List.replicate 3 (.fetch .gap .gap)) t ∧
      t.served = s.served ++ got ∧ 2 ∈ got := by
  have hexec : (exec ApiSys.step Any (.start : ApiSys Nat)
      [.createQueue, .createQueue, .createQueue, .consume 1 false,
        .mask 2, .mux 1 (attachFilled 3), .mux 2 (attachFilled 3)]).any
      (fun s => decide (s.api.queues.length = 3 ∧
        (exec ApiSys.step (ApiSys.Steady 2) s
          (List.replicate 3 (.fetch .gap .gap))).any
          (fun t => decide (t.served.length = s.served.length + 3)) = true)) =
      true := by
    decide +kernel
  obtain ⟨s, hrun, hqueues, hs⟩ := Run.of_exec_any hexec
  obtain ⟨t, hsteady, hlen⟩ := Run.of_exec_any hs
  obtain ⟨-, -, -, -, hfair⟩ := fetch_message_fair hrun
  obtain ⟨got, hserved, hmem⟩ := hfair 2 (by omega) _ t hsteady (by omega)
  exact ⟨s, t, got, hrun, hsteady, hserved, hmem⟩

end ZeroMQ
