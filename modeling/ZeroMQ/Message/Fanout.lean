import ZeroMQ.Message.Raw
import ZeroMQ.Pipe.Whole

/-!
# Messages on their way through publishers and muxes

Any number of message structures, pipes, publishers (`libzmq/publisher.cpp`)
and muxes (`libzmq/mux.cpp`) over one heap.  Every pipe is listed by one
publisher, at which it is written, and by one mux, from which it is read; it is
deleted by the mux once the shutdown handshake is over, with whatever is still
in it.

A step is one call: of an operation on messages, of `publisher_t::write`, of
`mux_t::read`, of the destructor of a pipe, or one step of a pipe's thread
elsewhere (flushing, the commands `revive` and `head`, the shutdown).  The
callers keep to the usual contract: a structure is initialised before use and
not initialised again before it is destroyed, and the two messages of a copy or
a move are different ones.

## Main results

* `Inv.step` — each call keeps the counters exact.
* `refcounts_exact` — in every run with fewer than `2^32` handles, the handles
  to a content are counted exactly once there is more than one, a content is
  freed exactly when its last handle has gone, and no stale pointer is followed.
-/

namespace ZeroMQ

open ZeroMQ.Lib

/-- A `raw_message_t`, and whether it has been initialised and not destroyed
since. -/
structure Object where
  msg : RawMessage
  live : Bool
  deriving DecidableEq, Repr

/-- A pipe with the publisher that writes it and the mux that reads it. -/
structure Route where
  publisher : Nat
  mux : Nat
  sys : PipeSys Handle

/-- Message structures, pipes and, for every mux, its member `current`. -/
structure MsgSys where
  heap : Heap
  objects : List Object
  links : List Route
  muxes : List Nat

def Object.refs (o : Object) : List (Ref Nat) :=
  if o.live then o.msg.refs else []

/-- The handles in a pipe: one for each slot that has not been read. -/
def Route.refs (l : Route) : List (Ref Nat) :=
  if l.sys.inMux then l.sys.pipe.coreMsgs.flatMap RawMsg.refs else []

/-- All handles to contents: those of the message objects and those of the
slots in the pipes. -/
def MsgSys.handles (s : MsgSys) : List (Ref Nat) :=
  s.objects.flatMap Object.refs ++ s.links.flatMap Route.refs

/-! ## `publisher_t::write` -/

/-- The publisher's list `pipes` has the pipe. -/
def Route.feeds (l : Route) (p : Nat) : Bool :=
  l.publisher = p && l.sys.inDemux

/-- `pipe_t::write`, by the thread of the publisher. -/
def Route.write (l : Route) (msg : RawMessage) : Option Route :=
  if l.sys.writer = .idle then
    (l.sys.pipe.write msg).map fun p => { l with sys := { l.sys with pipe := p } }
  else none

/-- `(*it)->write (msg)` for every pipe of the publisher. -/
def writeAll (p : Nat) (msg : RawMessage) : List Route → Option (List Route)
  | [] => some []
  | l :: ls =>
      (if l.feeds p then l.write msg else some l).bind fun l' =>
        (writeAll p msg ls).map fun ls' => l' :: ls'

/-- `content == vsm_tag`. -/
def RawMsg.isVsm : RawMessage → Bool
  | .data ⟨.vsm, _, _, _⟩ => true
  | _ => false

/-- `publisher_t::write`: its result, the message, the heap and the pipes. -/
def publisherWrite (p : Nat) (msg : RawMessage) (h : Heap)
    (links : List Route) : Option (Bool × RawMessage × Heap × List Route) :=
  let pipesCount := links.countP fun l => l.feeds p
  if msg.isDelimiter then
    (writeAll p msg links).map fun ls =>
      (true, (rawMessageInit msg 0 h).1, (rawMessageInit msg 0 h).2, ls)
  else if pipesCount = 0 then
    let h := rawMessageDestroy msg h
    some (true, (rawMessageInit msg 0 h).1, (rawMessageInit msg 0 h).2, links)
  else if links.any fun l => l.feeds p && !l.sys.pipe.checkWrite then
    some (false, msg, h, links)
  else if msg.isVsm then
    (writeAll p msg links).map fun ls =>
      (true, (rawMessageInit msg 0 h).1, (rawMessageInit msg 0 h).2, ls)
  else if pipesCount = 1 then
    (writeAll p msg links).map fun ls =>
      (true, (rawMessageInit msg 0 h).1, (rawMessageInit msg 0 h).2, ls)
  else
    let (msg, h) := fanOut pipesCount msg h
    (writeAll p msg links).map fun ls =>
      (true, (rawMessageInit msg 0 h).1, (rawMessageInit msg 0 h).2, ls)

/-! ## `mux_t::read` -/

/-- The positions of the mux's list `pipes`. -/
def muxPipes (m : Nat) (links : List Route) : List Nat :=
  (List.range links.length).filter fun k =>
    links[k]?.any fun l => l.mux = m && l.sys.inMux

/-- The loop of `mux_t::read` over the pipes at `ids`: its result, `current`,
the message and the pipes. -/
def muxReadLoop (ids : List Nat) : Nat → Nat → RawMessage → List Route →
    Option (Bool × Nat × RawMessage × List Route)
  | 0, current, msg, links => some (false, current, msg, links)
  | toProcess + 1, current, msg, links =>
      ids[current]?.bind fun k => links[k]?.bind fun l =>
        (l.sys.readCall msg).bind fun (retrieved, msg', sys) =>
          let links' := links.set k { l with sys := sys }
          let current' := if current + 1 = ids.length then 0 else current + 1
          if retrieved then some (true, current', msg', links')
          else muxReadLoop ids toProcess current' msg' links'

/-- `mux_t::read`: its result, `current`, the message, the heap and the
pipes. -/
def muxRead (m current : Nat) (msg : RawMessage) (h : Heap)
    (links : List Route) :
    Option (Bool × Nat × RawMessage × Heap × List Route) :=
  let h := rawMessageDestroy msg h
  let ids := muxPipes m links
  (muxReadLoop ids ids.length current msg links).map
    fun (retrieved, current', msg', links') =>
      if retrieved then (true, current', msg', h, links')
      else
        (false, current', (rawMessageInit msg' 0 h).1,
          (rawMessageInit msg' 0 h).2, links')

/-! ## The system -/

/-- The calls. -/
inductive MsgAct where
  | declare (garbage : RawMessage)
  | init (i size : Nat)
  | initData (i data size : Nat) (ffn : Option Nat)
  | destroy (i : Nat)
  | copy (src dest : Nat)
  | move (src dest : Nat)
  | newMux
  | connect (p m : Nat) (src dst : EngineLimits)
  | write (p i : Nat)
  | read (m i : Nat)
  | pipe (k : Nat) (a : PipeAct Handle)
  | delete (k : Nat)
  deriving DecidableEq, Repr

/-- The steps of a pipe's two threads that are not calls of `write`, `gap`,
`read` or the destructor. -/
def PipeAct.internal : PipeAct Handle → Bool
  | .flush => true
  | .cas => true
  | .set => true
  | .sendRevive => true
  | .resume => true
  | .head => true
  | .terminateWriter => true
  | .terminatePipe => true
  | .revive => true
  | .terminateReader => true
  | _ => false

namespace MsgSys

/-- No messages, no pipes. -/
def start : MsgSys := { heap := ⟨[], false⟩, objects := [], links := [], muxes := [] }

/-- The message at `i`, if it is initialised. -/
def live (s : MsgSys) (i : Nat) : Option RawMessage :=
  (s.objects[i]?.filter fun o => o.live).map fun o => o.msg

/-- The storage at `i`, if it is not in use. -/
def unused (s : MsgSys) (i : Nat) : Option RawMessage :=
  (s.objects[i]?.filter fun o => !o.live).map fun o => o.msg

/-- One call. -/
def step (s : MsgSys) : MsgAct → Option MsgSys
  | .declare garbage =>
      some { s with objects := s.objects ++ [⟨garbage, false⟩] }
  | .init i size =>
      (s.unused i).map fun old =>
        let (msg, h) := rawMessageInit old size s.heap
        { s with heap := h, objects := s.objects.set i ⟨msg, true⟩ }
  | .initData i data size ffn =>
      (s.unused i).map fun old =>
        let (msg, h) := rawMessageInitData old data size ffn s.heap
        { s with heap := h, objects := s.objects.set i ⟨msg, true⟩ }
  | .destroy i =>
      (s.live i).map fun msg =>
        { s with
          heap := rawMessageDestroy msg s.heap
          objects := s.objects.set i ⟨msg, false⟩ }
  | .copy i j =>
      if i = j then none
      else
        (s.live i).bind fun src => (s.live j).map fun dest =>
          let (src', dest', h) := rawMessageCopy src dest s.heap
          { s with
            heap := h
            objects := (s.objects.set i ⟨src', true⟩).set j ⟨dest', true⟩ }
  | .move i j =>
      if i = j then none
      else
        (s.live i).bind fun src => (s.live j).map fun dest =>
          let (src', dest', h) := rawMessageMove src dest s.heap
          { s with
            heap := h
            objects := (s.objects.set i ⟨src', true⟩).set j ⟨dest', true⟩ }
  | .newMux => some { s with muxes := s.muxes ++ [0] }
  | .connect p m src dst =>
      -- Pipes without swap.
      if src.swapSize + dst.swapSize ≤ 0 then
        some { s with
          links := s.links ++
            [⟨p, m, .start (Pipe.create src dst fun _ _ => false)⟩] }
      else none
  | .write p i =>
      (s.live i).bind fun msg =>
        (publisherWrite p msg s.heap s.links).map fun (_, msg', h, links) =>
          { s with
            heap := h
            objects := s.objects.set i ⟨msg', true⟩
            links := links }
  | .read m i =>
      (s.live i).bind fun msg => s.muxes[m]?.bind fun current =>
        (muxRead m current msg s.heap s.links).map
          fun (_, current', msg', h, links) =>
            { s with
              heap := h
              objects := s.objects.set i ⟨msg', true⟩
              links := links
              muxes := s.muxes.set m current' }
  | .pipe k a =>
      if a.internal then
        s.links[k]?.bind fun l => (l.sys.step a).map fun sys =>
          { s with links := s.links.set k { l with sys := sys } }
      else none
  | .delete k =>
      -- `mux_t::release_pipe`, on the command `terminate_pipe_ack`.
      s.links[k]?.bind fun l => (l.sys.step .terminatePipeAck).bind fun sys =>
        l.sys.pipe.pipe.purge.map fun msgs =>
          let links := s.links.set k { l with sys := sys }
          { s with
            heap := msgs.foldl (fun h msg => rawMessageDestroy msg h) s.heap
            links := links
            muxes := s.muxes.modify l.mux fun current =>
              if current = (muxPipes l.mux links).length then 0 else current }

/-- Fewer than `2^32` handles. -/
def Few (s : MsgSys) (a : MsgAct) : Prop :=
  ∀ s', s.step a = some s' → s'.handles.length < 2 ^ 32

instance (s : MsgSys) (a : MsgAct) : Decidable (s.Few a) :=
  match h : s.step a with
  | none => .isTrue fun s' hs => by simp [h] at hs
  | some t =>
      decidable_of_iff (t.handles.length < 2 ^ 32)
        ⟨fun ht s' hs => by
            rw [h, Option.some.injEq] at hs
            rwa [← hs],
          fun ht => ht t h⟩

end MsgSys

/-! ## Pipes without swap -/

/-- What the operations need of a pipe. -/
structure RouteInv (l : Route) : Prop where
  sleep : l.sys.SleepInv
  /-- The writer's end is released first. -/
  listed : l.sys.inDemux = true →
    l.sys.inMux = true ∧ .terminatePipeAck ∉ l.sys.toDestination
  noDam : l.sys.pipe.dataDam = none
  noSwap : l.sys.pipe.swapping = false
  noGap : RawMsg.gap ∉ l.sys.pipe.pipe.slots

variable {l l' : Route} {sys : PipeSys Handle} {msg msg' : RawMessage}

theorem RouteInv.create (p m : Nat) {src dst : EngineLimits}
    (hswap : src.swapSize + dst.swapSize ≤ 0) :
    RouteInv ⟨p, m, .start (Pipe.create src dst fun _ _ => false)⟩ where
  sleep := .start src dst _
  listed := fun _ => ⟨rfl, by simp [PipeSys.start]⟩
  noDam := by
    have hneg : ¬ src.swapSize + dst.swapSize > 0 := by omega
    simp [PipeSys.start, Pipe.create, hneg]
  noSwap := rfl
  noGap := by simp [PipeSys.start, Pipe.create, Ypipe.create]

theorem Route.refs_create (p m : Nat) (src dst : EngineLimits) :
    Route.refs ⟨p, m, .start (Pipe.create src dst fun _ _ => false)⟩ = [] := by
  simp [Route.refs, PipeSys.start, Pipe.create, Ypipe.create, Pipe.coreMsgs]

/-- The slots of a pipe that is listed stay where they are. -/
theorem Route.refs_congr (hmux : l'.sys.inMux = l.sys.inMux)
    (hcore : l'.sys.pipe.coreMsgs.flatMap RawMsg.refs =
      l.sys.pipe.coreMsgs.flatMap RawMsg.refs) : l'.refs = l.refs := by
  rw [Route.refs, Route.refs, hmux, hcore]

/-- A message written to a pipe is in one more slot. -/
theorem RouteInv.write (h : RouteInv l) (hw : l.write msg = some l')
    (hdemux : l.sys.inDemux = true) (hgap : msg ≠ .gap) :
    RouteInv l' ∧ l'.refs = l.refs ++ msg.refs := by
  unfold Route.write at hw
  split at hw
  · next hidle =>
      obtain ⟨p, hp, rfl⟩ := Option.map_eq_some_iff.mp hw
      obtain ⟨-, ⟨d, hd, -⟩ | ⟨-, -, rfl⟩⟩ := Pipe.write_cases hp
      · rw [h.noDam] at hd
        cases hd
      · have hsleep : PipeSys.SleepInv
            { l.sys with pipe := l.sys.pipe.storeCore msg } :=
          h.sleep.of_extends (Pipe.write_extends hp)
            (Pipe.write_frame hp).alive rfl (by simp [hidle])
        refine ⟨⟨hsleep, h.listed, h.noDam, h.noSwap, ?_⟩, ?_⟩
        · have hslots := h.noGap
          simp only [Pipe.storeCore, Ypipe.write, List.mem_append,
            List.mem_singleton, not_or]
          exact ⟨hslots, fun heq => hgap heq.symm⟩
        · have hle := h.sleep.proto.front_le_back
          have hcore : (l.sys.pipe.storeCore msg).coreMsgs =
              l.sys.pipe.coreMsgs ++ [msg] :=
            List.drop_append_of_le_length hle
          simp [Route.refs, (h.listed hdemux).1, hcore]
  · cases hw

theorem RouteInv.readCall {b : Bool} (h : RouteInv l)
    (hr : l.sys.readCall msg = some (b, msg', sys))
    (hmux : l.sys.inMux = true) :
    RouteInv { l with sys := sys } ∧ sys.inMux = l.sys.inMux ∧
      ((b = false ∧ (msg' = msg ∨ msg' = .delimiter) ∧
          Route.refs { l with sys := sys } = l.refs) ∨
        (b = true ∧ msg' ≠ .delimiter ∧ msg' ≠ .gap ∧
          l.refs = msg'.refs ++ Route.refs { l with sys := sys })) := by
  obtain ⟨hsleep, hframe, hcases⟩ := PipeSys.readCall_spec hr h.sleep
  have hinv : RouteInv { l with sys := sys } := by
    refine ⟨hsleep, ?_, hframe.dataDam.trans h.noDam,
      hframe.swapping.trans h.noSwap, ?_⟩
    · rw [hframe.inDemux, hframe.inMux, hframe.toDestination]
      exact h.listed
    · rw [hframe.slots]
      exact h.noGap
  refine ⟨hinv, hframe.inMux, ?_⟩
  rcases hcases with ⟨hb, hm, hcore⟩ | ⟨hb, hcore⟩
  · exact .inl ⟨hb, .inl hm, Route.refs_congr hframe.inMux (by rw [hcore])⟩
  · have hrefs : l.refs = msg'.refs ++ Route.refs { l with sys := sys } := by
      simp [Route.refs, hframe.inMux, hmux, hcore]
    cases b with
    | false =>
        have hdel : msg' = .delimiter := by simpa using hb
        refine .inl ⟨rfl, .inr hdel, ?_⟩
        rw [hrefs, hdel]
        rfl
    | true =>
        have hmem : msg' ∈ l.sys.pipe.coreMsgs := by simp [hcore]
        refine .inr ⟨rfl, hb.mp rfl, ?_, hrefs⟩
        rintro rfl
        exact h.noGap (List.mem_of_mem_drop hmem)

/-- The other steps of a pipe's threads keep the slots, except that
`terminate_writer` stores a delimiter. -/
theorem RouteInv.internal {a : PipeAct Handle} (h : RouteInv l)
    (ha : a.internal = true) (hs : PipeSys.Step l.sys a sys) :
    RouteInv { l with sys := sys } ∧
      Route.refs { l with sys := sys } = l.refs := by
  have hsleep := h.sleep.step hs
  cases hs with
  | flush hw hd
  | terminateWriterAgain hw hd ht
  | casNothing hw hu
  | casFound hw hu hc
  | casNull hw hu hc
  | set hw
  | terminateReaderAgain hr hm ht
  | terminateReader hr hm ht =>
      exact ⟨{ h with sleep := hsleep }, rfl⟩
  | terminateWriter hw hd ht =>
      have hle := h.sleep.proto.front_le_back
      refine ⟨{ h with sleep := hsleep, noGap := ?_ }, ?_⟩
      · simpa [Ypipe.write] using h.noGap
      · refine Route.refs_congr rfl ?_
        simp only [Pipe.coreMsgs, Ypipe.write]
        rw [List.drop_append_of_le_length hle]
        simp [RawMsg.refs]
  | headSwapIn hw hq hsw hp =>
      have hswap := h.noSwap
      simp [Pipe.wantsSwapIn, Pipe.moveHead, hswap] at hsw
  | head hw hq hsw hp =>
      obtain ⟨rfl, -⟩ := Pipe.writeDelayedGap_cases hp
      exact ⟨{ h with sleep := hsleep }, rfl⟩
  | terminatePipe hw hq hsrc hdst =>
      exact ⟨{ h with sleep := hsleep, listed := by simp }, rfl⟩
  | sendRevive hw hsrc hdst =>
      refine ⟨{ h with sleep := hsleep, listed := ?_ }, rfl⟩
      intro hd
      obtain ⟨hm, hack⟩ := h.listed hd
      exact ⟨hm, by simpa using hack⟩
  | resume hw hp =>
      rcases PipeSys.afterFlush_cases hp with
        ⟨_, rfl⟩ | ⟨_, _, rfl⟩ | ⟨_, _, _, rfl⟩ | ⟨_, rfl⟩
      · exact ⟨{ h with sleep := hsleep }, rfl⟩
      · exact ⟨{ h with sleep := hsleep }, rfl⟩
      · exact ⟨{ h with sleep := hsleep, noSwap := rfl }, rfl⟩
      · exact ⟨{ h with sleep := hsleep }, rfl⟩
  | revive hr hq hal =>
      refine ⟨{ h with sleep := hsleep, listed := ?_ }, rfl⟩
      intro hd
      obtain ⟨hm, hack⟩ := h.listed hd
      exact ⟨hm, by simpa [hq] using hack⟩
  | _ => simp [PipeAct.internal] at ha

theorem RouteInv.delete (h : RouteInv l)
    (hs : PipeSys.Step l.sys .terminatePipeAck sys) :
    RouteInv { l with sys := sys } ∧
      Route.refs { l with sys := sys } = [] ∧
      l.refs = l.sys.pipe.coreMsgs.flatMap RawMsg.refs := by
  have hsleep := h.sleep.step hs
  cases hs with
  | terminatePipeAck hr hq hm =>
      refine ⟨{ h with sleep := hsleep, listed := ?_ }, by simp [Route.refs],
        by simp [Route.refs, hm]⟩
      intro hd
      have hack := (h.listed hd).2
      simp [hq] at hack

/-! ## The calls on many pipes -/

variable {h h' : Heap} {links links' : List Route} {rest : List (Ref Nat)}

theorem writeAll_spec {p : Nat} (hroutes : ∀ l ∈ links, RouteInv l)
    (hgap : msg ≠ .gap) (hw : writeAll p msg links = some links') :
    (∀ l ∈ links', RouteInv l) ∧
      (links'.flatMap Route.refs).Perm
        ((List.replicate (links.countP fun l => l.feeds p)
          msg.refs).flatten ++ links.flatMap Route.refs) := by
  induction links generalizing links' with
  | nil =>
      cases hw
      simp
  | cons l ls ih =>
      obtain ⟨l', hl', hw⟩ := Option.bind_eq_some_iff.mp hw
      obtain ⟨ls', hls', rfl⟩ := Option.map_eq_some_iff.mp hw
      obtain ⟨ihInv, ihPerm⟩ := ih (fun l hl => hroutes l (by simp [hl])) hls'
      have hl := hroutes l (by simp)
      by_cases hf : l.feeds p = true
      · rw [if_pos hf] at hl'
        have hd : l.sys.inDemux = true := by
          rw [Route.feeds, Bool.and_eq_true] at hf
          exact hf.2
        obtain ⟨hInv, hrefs⟩ := hl.write hl' hd hgap
        refine ⟨by simpa [hInv] using ihInv, ?_⟩
        rw [List.countP_cons_of_pos (p := fun l : Route => l.feeds p) hf, List.replicate_succ,
          List.flatten_cons, List.flatMap_cons, List.flatMap_cons, hrefs,
          List.append_assoc, List.append_assoc]
        -- The new slot comes before those of the pipe.
        refine ((List.perm_append_comm_assoc _ _ _).trans ?_)
        refine .append_left _ ?_
        refine (ihPerm.append_left _).trans ?_
        exact List.perm_append_comm_assoc _ _ _
      · rw [if_neg hf, Option.some.injEq] at hl'
        subst hl'
        refine ⟨by simpa [hl] using ihInv, ?_⟩
        rw [List.countP_cons_of_neg (p := fun l : Route => l.feeds p) hf,
          List.flatMap_cons, List.flatMap_cons]
        exact (ihPerm.append_left _).trans
          (List.perm_append_comm_assoc _ _ _)

/-- `raw_message_init (msg, 0)` after the handles of the message went
elsewhere. -/
theorem initZero_spec (hs : Sound h rest) (msg : RawMessage) :
    (∃ m, (rawMessageInit msg 0 h).1 = .data m) ∧
      Sound (rawMessageInit msg 0 h).2
        ((rawMessageInit msg 0 h).1.refs ++ rest) := by
  refine ⟨⟨_, rfl⟩, ?_⟩
  rw [refs_rawMessageInit_zero, rawMessageInit_zero_heap]
  exact hs

/-- Publishing a message moves its handle into the pipes, as many times as
there are pipes. -/
theorem publisherWrite_spec {p : Nat} {b : Bool} {m : Handle}
    (hs : Sound h ((RawMsg.data m).refs ++
      (links.flatMap Route.refs ++ rest)))
    (hroutes : ∀ l ∈ links, RouteInv l)
    (hw : publisherWrite p (.data m) h links = some (b, msg', h', links'))
    (hfew : (links'.flatMap Route.refs ++ rest).length < 2 ^ 32) :
    (∀ l ∈ links', RouteInv l) ∧ (∃ m', msg' = .data m') ∧
      Sound h' (msg'.refs ++ (links'.flatMap Route.refs ++ rest)) := by
  simp only [publisherWrite, RawMsg.isDelimiter, Bool.false_eq_true,
    if_false] at hw
  split at hw
  · -- No pipes: the message is dropped.
    cases hw
    obtain ⟨hdata, hsound⟩ := initZero_spec hs.rawMessageDestroy (.data m)
    exact ⟨hroutes, hdata, hsound⟩
  · next hpos =>
    split at hw
    · cases hw
      exact ⟨hroutes, ⟨m, rfl⟩, hs⟩
    · split at hw
      · next hvsm =>
          -- A very small message holds no handle.
          obtain ⟨ls, hls, hw⟩ := Option.map_eq_some_iff.mp hw
          cases hw
          obtain ⟨hInv, hperm⟩ := writeAll_spec hroutes (by simp) hls
          have hnil : (RawMsg.data m).refs = [] := by
            obtain ⟨content, _, _, _⟩ := m
            cases content with
            | vsm => rfl
            | ptr a => simp [RawMsg.isVsm] at hvsm
          rw [hnil, List.flatten_replicate_nil, List.nil_append] at hperm
          rw [hnil, List.nil_append] at hs
          obtain ⟨hdata, hsound⟩ :=
            initZero_spec (hs.perm (hperm.append_right rest)) (.data m)
          exact ⟨hInv, hdata, hsound⟩
      · next hvsm =>
        split at hw
        · next hone =>
            -- One pipe: the handle moves.
            obtain ⟨ls, hls, hw⟩ := Option.map_eq_some_iff.mp hw
            cases hw
            obtain ⟨hInv, hperm⟩ := writeAll_spec hroutes (by simp) hls
            simp only [hone, List.replicate_one, List.flatten_cons,
              List.flatten_nil, List.append_nil] at hperm
            have hs' : Sound h (links'.flatMap Route.refs ++ rest) := by
              refine hs.perm ?_
              rw [← List.append_assoc]
              exact hperm.append_right rest
            obtain ⟨hdata, hsound⟩ := initZero_spec hs' (.data m)
            exact ⟨hInv, hdata, hsound⟩
        · obtain ⟨ls, hls, hw⟩ := Option.map_eq_some_iff.mp hw
          cases hw
          obtain ⟨content, shared, size, data⟩ := m
          cases content with
          | vsm => simp [RawMsg.isVsm] at hvsm
          | ptr a =>
              -- The counter is set for all the slots before they are filled.
              generalize hn : links.countP (fun l => l.feeds p) = n at *
              have hmsg : (fanOut n (.data ⟨.ptr a, shared, size, data⟩)
                  h).1 = .data ⟨.ptr a, true, size, data⟩ := by
                cases shared <;> rfl
              rw [hmsg] at hls
              obtain ⟨hInv, hperm⟩ := writeAll_spec hroutes (by simp) hls
              simp only [hn, RawMsg.refs,
                List.flatten_replicate_singleton] at hperm
              have hperm' := hperm.append_right rest
              rw [List.append_assoc] at hperm'
              rw [hperm'.length_eq, List.length_append,
                List.length_replicate] at hfew
              obtain ⟨-, hfan⟩ := hs.fanOut size data
                (Nat.pos_of_ne_zero hpos) hfew
              obtain ⟨hdata, hsound⟩ := initZero_spec (hfan.perm hperm')
                (fanOut n (.data ⟨.ptr a, shared, size, data⟩) h).1
              exact ⟨hInv, hdata, hsound⟩

/-- The loop of `mux_t::read` takes the handle of one slot, or none. -/
theorem muxReadLoop_spec {ids : List Nat} {n current current' : Nat} {b : Bool}
    (hroutes : ∀ l ∈ links, RouteInv l)
    (hids : ∀ k ∈ ids, ∀ l, links[k]? = some l → l.sys.inMux = true)
    (hr : muxReadLoop ids n current msg links =
      some (b, current', msg', links')) :
    (∀ l ∈ links', RouteInv l) ∧
      ((b = false ∧
          (links.flatMap Route.refs).Perm (links'.flatMap Route.refs)) ∨
        (b = true ∧ (∃ m, msg' = .data m) ∧
          (links.flatMap Route.refs).Perm
            (msg'.refs ++ links'.flatMap Route.refs))) := by
  induction n generalizing current msg links with
  | zero =>
      cases hr
      exact ⟨hroutes, .inl ⟨rfl, .refl _⟩⟩
  | succ n ih =>
      obtain ⟨k, hk, hr⟩ := Option.bind_eq_some_iff.mp hr
      obtain ⟨l, hl, hr⟩ := Option.bind_eq_some_iff.mp hr
      obtain ⟨⟨retrieved, msg₁, sys⟩, hcall, hr⟩ :=
        Option.bind_eq_some_iff.mp hr
      have hlt := (List.getElem?_eq_some_iff.mp hl).1
      have hmux := hids k (List.mem_of_getElem? hk) l hl
      obtain ⟨hInv, hsame, hcases⟩ :=
        (hroutes l (List.mem_of_getElem? hl)).readCall hcall hmux
      have hroutes' : ∀ r ∈ links.set k { l with sys := sys }, RouteInv r :=
        forall_mem_set hroutes hInv
      have hold := flatMap_perm_eraseIdx (f := Route.refs) hl
      have hnew := flatMap_set_perm (f := Route.refs) hlt { l with sys := sys }
      rcases hcases with ⟨rfl, -, hrefs⟩ | ⟨rfl, hdel, hgap, hrefs⟩
      · rw [hrefs] at hnew
        have hids' : ∀ k' ∈ ids, ∀ l',
            (links.set k { l with sys := sys })[k']? = some l' →
              l'.sys.inMux = true := by
          intro k' hk' l' hl'
          by_cases heq : k = k'
          · subst heq
            rw [List.getElem?_set_self hlt, Option.some.injEq] at hl'
            subst hl'
            exact hsame.trans hmux
          · rw [List.getElem?_set_ne heq] at hl'
            exact hids k' hk' l' hl'
        have hperm := hold.trans hnew.symm
        obtain ⟨hInv', hrest⟩ := ih hroutes' hids' hr
        refine ⟨hInv', ?_⟩
        rcases hrest with ⟨hb, hp⟩ | ⟨hb, hd, hp⟩
        · exact .inl ⟨hb, hperm.trans hp⟩
        · exact .inr ⟨hb, hd, hperm.trans hp⟩
      · simp only [if_true, Option.some.injEq, Prod.mk.injEq] at hr
        obtain ⟨rfl, rfl, rfl, rfl⟩ := hr
        refine ⟨hroutes', .inr ⟨rfl, ?_, ?_⟩⟩
        · cases msg₁ with
          | data m => exact ⟨m, rfl⟩
          | gap => exact (hgap rfl).elim
          | delimiter => exact (hdel rfl).elim
        · rw [hrefs, List.append_assoc] at hold
          exact hold.trans (hnew.symm.append_left _)

theorem muxPipes_inMux {m k : Nat} (hk : k ∈ muxPipes m links)
    (hl : links[k]? = some l) : l.sys.inMux = true := by
  have hany := (List.mem_filter.mp hk).2
  rw [hl] at hany
  simpa using (Bool.and_eq_true_iff.mp hany).2

/-- Reading a message replaces the old one by the handle of a slot. -/
theorem muxRead_spec {m current current' : Nat} {b : Bool}
    (hs : Sound h (msg.refs ++ (links.flatMap Route.refs ++ rest)))
    (hroutes : ∀ l ∈ links, RouteInv l)
    (hr : muxRead m current msg h links =
      some (b, current', msg', h', links')) :
    (∀ l ∈ links', RouteInv l) ∧ (∃ m', msg' = .data m') ∧
      Sound h' (msg'.refs ++ (links'.flatMap Route.refs ++ rest)) := by
  obtain ⟨⟨retrieved, current₁, msg₁, links₁⟩, hloop, hr⟩ :=
    Option.map_eq_some_iff.mp hr
  have hd := hs.rawMessageDestroy
  obtain ⟨hInv, ⟨rfl, hp⟩ | ⟨rfl, hdata, hp⟩⟩ := muxReadLoop_spec hroutes
    (fun k hk l hl => muxPipes_inMux hk hl) hloop
  · cases hr
    obtain ⟨hdata, hsound⟩ :=
      initZero_spec (hd.perm (hp.symm.append_right rest)) msg₁
    exact ⟨hInv, hdata, hsound⟩
  · cases hr
    refine ⟨hInv, hdata, hd.perm ?_⟩
    rw [← List.append_assoc]
    exact hp.symm.append_right rest

/-- The destructor's loop drops the handle of every slot. -/
theorem sound_destroyAll {msgs : List RawMessage}
    (hs : Sound h (msgs.flatMap RawMsg.refs ++ rest)) :
    Sound (msgs.foldl (fun h msg => rawMessageDestroy msg h) h) rest := by
  induction msgs generalizing h with
  | nil => exact hs
  | cons msg msgs ih =>
      rw [List.flatMap_cons, List.append_assoc] at hs
      exact ih hs.rawMessageDestroy

/-! ## Every call -/

namespace MsgSys

/-- The counters are exact for all handles of the system. -/
structure Inv (s : MsgSys) : Prop where
  sound : Sound s.heap s.handles
  routes : ∀ l ∈ s.links, RouteInv l
  data : ∀ o ∈ s.objects, o.live = true → ∃ m, o.msg = .data m

theorem Inv.start : Inv start where
  sound := Sound.empty
  routes := by simp [MsgSys.start]
  data := by simp [MsgSys.start]

variable {s s' : MsgSys} {i j : Nat}

theorem live_eq_some (h : s.live i = some msg) :
    s.objects[i]? = some ⟨msg, true⟩ := by
  obtain ⟨o, ho, rfl⟩ := Option.map_eq_some_iff.mp h
  obtain ⟨ho, hl⟩ := Option.filter_eq_some_iff.mp ho
  rw [ho]
  cases o
  simp_all

theorem unused_eq_some (h : s.unused i = some msg) :
    s.objects[i]? = some ⟨msg, false⟩ := by
  obtain ⟨o, ho, rfl⟩ := Option.map_eq_some_iff.mp h
  obtain ⟨ho, hl⟩ := Option.filter_eq_some_iff.mp ho
  rw [ho]
  cases o
  simp_all

/-- An object that is set apart from the others. -/
theorem handles_perm {o : Object} (hi : s.objects[i]? = some o) :
    s.handles.Perm (o.refs ++
      (s.links.flatMap Route.refs ++
        (s.objects.eraseIdx i).flatMap Object.refs)) := by
  refine ((flatMap_perm_eraseIdx hi).append_right _).trans ?_
  rw [List.append_assoc]
  exact List.perm_append_comm.append_left _

theorem handles_set_perm (hi : i < s.objects.length) (o : Object) (h : Heap)
    (links : List Route) (muxes : List Nat) :
    (MsgSys.mk h (s.objects.set i o) links muxes).handles.Perm (o.refs ++
      (links.flatMap Route.refs ++
        (s.objects.eraseIdx i).flatMap Object.refs)) := by
  refine ((flatMap_set_perm hi o).append_right _).trans ?_
  rw [List.append_assoc]
  exact List.perm_append_comm.append_left _

/-- One message object changes, perhaps with the pipes. -/
theorem Inv.object {o o' : Object} {h : Heap} {links : List Route}
    {muxes : List Nat} (hinv : Inv s) (hi : s.objects[i]? = some o)
    (hroutes : ∀ l ∈ links, RouteInv l)
    (hdata : o'.live = true → ∃ m, o'.msg = .data m)
    (hsound : Sound h (o'.refs ++ (links.flatMap Route.refs ++
      (s.objects.eraseIdx i).flatMap Object.refs))) :
    Inv ⟨h, s.objects.set i o', links, muxes⟩ := by
  have hlt := (List.getElem?_eq_some_iff.mp hi).1
  exact ⟨hsound.perm (handles_set_perm hlt o' h links muxes), hroutes,
    forall_mem_set hinv.data hdata⟩

theorem Inv.live_data (hinv : Inv s) (h : s.live i = some msg) :
    ∃ m, msg = .data m :=
  hinv.data ⟨msg, true⟩ (List.mem_of_getElem? (live_eq_some h)) rfl

theorem Inv.sound_live (hinv : Inv s) (h : s.live i = some msg) :
    Sound s.heap (msg.refs ++ (s.links.flatMap Route.refs ++
      (s.objects.eraseIdx i).flatMap Object.refs)) :=
  hinv.sound.perm (handles_perm (live_eq_some h)).symm

/-- A message is constructed in an object. -/
theorem Inv.construct {msg' : RawMessage} {h : Heap} (hinv : Inv s)
    (hi : s.unused i = some msg) (hdata : ∃ m, msg' = .data m)
    (hop : ∀ rest, Sound s.heap rest → (msg'.refs ++ rest).length < 2 ^ 32 →
      Sound h (msg'.refs ++ rest))
    (hfew : (MsgSys.mk h (s.objects.set i ⟨msg', true⟩) s.links
      s.muxes).handles.length < 2 ^ 32) :
    Inv ⟨h, s.objects.set i ⟨msg', true⟩, s.links, s.muxes⟩ := by
  have hi := unused_eq_some hi
  have hlt := (List.getElem?_eq_some_iff.mp hi).1
  have hrest := hinv.sound.perm (handles_perm hi).symm
  rw [(handles_set_perm hlt _ _ _ _).length_eq] at hfew
  exact hinv.object hi hinv.routes (fun _ => hdata) (hop _ hrest hfew)

/-- A copy or a move between two messages. -/
theorem Inv.pair {src dest src' dest' : RawMessage} {h : Heap}
    (hinv : Inv s) (hne : i ≠ j) (hi : s.live i = some src)
    (hj : s.live j = some dest) (hdata : ∃ m, src' = .data m)
    (hdata' : ∃ m, dest' = .data m)
    (hop : ∀ rest, Sound s.heap (dest.refs ++ (src.refs ++ rest)) →
      (src'.refs ++ (dest'.refs ++ rest)).length < 2 ^ 32 →
      Sound h (src'.refs ++ (dest'.refs ++ rest)))
    (hfew : (MsgSys.mk h
      ((s.objects.set i ⟨src', true⟩).set j ⟨dest', true⟩) s.links
      s.muxes).handles.length < 2 ^ 32) :
    Inv ⟨h, (s.objects.set i ⟨src', true⟩).set j ⟨dest', true⟩, s.links,
      s.muxes⟩ := by
  have hoi := live_eq_some hi
  have hoj := live_eq_some hj
  have hlti := (List.getElem?_eq_some_iff.mp hoi).1
  have hltj := (List.getElem?_eq_some_iff.mp hoj).1
  let blank : Object := ⟨src, false⟩
  have hblank : blank.refs = [] := rfl
  -- All handles apart from those of the two messages.
  let rest := ((s.objects.set j blank).set i blank).flatMap Object.refs ++
    s.links.flatMap Route.refs
  have hold : s.handles.Perm (dest.refs ++ (src.refs ++ rest)) := by
    have hp := flatMap_perm_blank_two (f := Object.refs) hoj hoi hne.symm
      hblank
    simpa [MsgSys.handles, rest, Object.refs] using
      hp.append_right (s.links.flatMap Route.refs)
  have hnew : (MsgSys.mk h
      ((s.objects.set i ⟨src', true⟩).set j ⟨dest', true⟩) s.links
      s.muxes).handles.Perm (src'.refs ++ (dest'.refs ++ rest)) := by
    have hi' : ((s.objects.set i ⟨src', true⟩).set j
        ⟨dest', true⟩)[i]? = some ⟨src', true⟩ := by
      rw [List.getElem?_set_ne hne.symm, List.getElem?_set_self hlti]
    have hj' : ((s.objects.set i ⟨src', true⟩).set j
        ⟨dest', true⟩)[j]? = some ⟨dest', true⟩ := by
      rw [List.getElem?_set_self (by simpa using hltj)]
    have hp := flatMap_perm_blank_two (f := Object.refs) hi' hj' hne hblank
    rw [List.set_comm _ blank hne.symm, List.set_set,
      List.set_set, List.set_comm blank blank hne] at hp
    simpa [MsgSys.handles, rest, Object.refs] using
      hp.append_right (s.links.flatMap Route.refs)
  rw [hnew.length_eq] at hfew
  refine ⟨(hop rest (hinv.sound.perm hold.symm) hfew).perm hnew,
    hinv.routes, ?_⟩
  exact forall_mem_set (forall_mem_set hinv.data fun _ => hdata)
    fun _ => hdata'

/-- A pipe changes, perhaps with the heap. -/
theorem Inv.route {k : Nat} {l l' : Route} {h : Heap} {muxes : List Nat}
    (hinv : Inv s) (hk : s.links[k]? = some l) (hl' : RouteInv l')
    (hop : ∀ rest, Sound s.heap (l.refs ++ rest) →
      Sound h (l'.refs ++ rest)) :
    Inv ⟨h, s.objects, s.links.set k l', muxes⟩ := by
  have hlt := (List.getElem?_eq_some_iff.mp hk).1
  have hold : s.handles.Perm (l.refs ++
      (s.objects.flatMap Object.refs ++
        (s.links.eraseIdx k).flatMap Route.refs)) :=
    ((flatMap_perm_eraseIdx hk).append_left _).trans
      (List.perm_append_comm_assoc _ _ _)
  have hnew : (MsgSys.mk h s.objects (s.links.set k l') muxes).handles.Perm
      (l'.refs ++ (s.objects.flatMap Object.refs ++
        (s.links.eraseIdx k).flatMap Route.refs)) :=
    ((flatMap_set_perm hlt l').append_left _).trans
      (List.perm_append_comm_assoc _ _ _)
  exact ⟨(hop _ (hinv.sound.perm hold.symm)).perm hnew,
    forall_mem_set hinv.routes hl', hinv.data⟩

/-- Every call keeps the counters exact. -/
theorem Inv.step {a : MsgAct} (hinv : Inv s) (hfew : s.Few a)
    (hs : s.step a = some s') : Inv s' := by
  have hlen := hfew s' hs
  cases a with
  | declare garbage =>
      cases hs
      refine ⟨?_, hinv.routes, ?_⟩
      · have hsound := hinv.sound
        simpa [handles, Object.refs] using hsound
      · intro o hmem hlive
        rcases List.mem_append.mp hmem with hmem | hmem
        · exact hinv.data o hmem hlive
        · rw [List.mem_singleton.mp hmem] at hlive
          cases hlive
  | init i size =>
      obtain ⟨old, hold, rfl⟩ := Option.map_eq_some_iff.mp hs
      have hdata : ∃ m, (rawMessageInit old size s.heap).1 = .data m := by
        unfold rawMessageInit
        split
        · exact ⟨_, rfl⟩
        · exact ⟨_, rfl⟩
      exact hinv.construct hold hdata
        (fun _ hrest hlen => hrest.rawMessageInit old size hlen) hlen
  | initData i data size ffn =>
      obtain ⟨old, hold, rfl⟩ := Option.map_eq_some_iff.mp hs
      exact hinv.construct hold ⟨_, rfl⟩ (fun _ hrest hlen =>
        hrest.rawMessageInitData old data size ffn hlen) hlen
  | destroy i =>
      obtain ⟨msg, hmsg, rfl⟩ := Option.map_eq_some_iff.mp hs
      exact hinv.object (live_eq_some hmsg) hinv.routes (by simp)
        (hinv.sound_live hmsg).rawMessageDestroy
  | copy i j =>
      rw [MsgSys.step] at hs
      split at hs
      · cases hs
      · next hne =>
          obtain ⟨src, hsrc, hs⟩ := Option.bind_eq_some_iff.mp hs
          obtain ⟨dest, hdest, rfl⟩ := Option.map_eq_some_iff.mp hs
          obtain ⟨m, rfl⟩ := hinv.live_data hsrc
          have hdata : ∃ m', (rawMessageCopy (.data m) dest s.heap).1 =
              .data m' := by
            obtain ⟨content, shared, size, data⟩ := m
            cases content <;> cases shared <;> exact ⟨_, rfl⟩
          exact hinv.pair hne hsrc hdest hdata hdata
            (fun rest hrest hlen => hrest.rawMessageCopy hlen) hlen
  | move i j =>
      rw [MsgSys.step] at hs
      split at hs
      · cases hs
      · next hne =>
          obtain ⟨src, hsrc, hs⟩ := Option.bind_eq_some_iff.mp hs
          obtain ⟨dest, hdest, rfl⟩ := Option.map_eq_some_iff.mp hs
          exact hinv.pair hne hsrc hdest ⟨_, rfl⟩ (hinv.live_data hsrc)
            (fun rest hrest _ => hrest.rawMessageMove) hlen
  | newMux =>
      cases hs
      exact { hinv with }
  | connect p m src dst =>
      rw [MsgSys.step] at hs
      split at hs
      · next hswap =>
          cases hs
          refine ⟨?_, ?_, hinv.data⟩
          · have hsound := hinv.sound
            simpa [handles, Route.refs_create] using hsound
          · intro l hmem
            rcases List.mem_append.mp hmem with hmem | hmem
            · exact hinv.routes l hmem
            · rw [List.mem_singleton.mp hmem]
              exact .create p m hswap
      · cases hs
  | write p i =>
      obtain ⟨msg, hmsg, hs⟩ := Option.bind_eq_some_iff.mp hs
      obtain ⟨⟨b, msg', h', links'⟩, hw, rfl⟩ := Option.map_eq_some_iff.mp hs
      obtain ⟨m, rfl⟩ := hinv.live_data hmsg
      have hi := live_eq_some hmsg
      have hlt := (List.getElem?_eq_some_iff.mp hi).1
      rw [(handles_set_perm hlt _ _ _ _).length_eq,
        List.length_append] at hlen
      obtain ⟨hroutes, hdata, hsound⟩ := publisherWrite_spec
        (hinv.sound_live hmsg) hinv.routes hw (by omega)
      exact hinv.object hi hroutes (fun _ => hdata) hsound
  | read m i =>
      obtain ⟨msg, hmsg, hs⟩ := Option.bind_eq_some_iff.mp hs
      obtain ⟨current, hcur, hs⟩ := Option.bind_eq_some_iff.mp hs
      obtain ⟨⟨b, current', msg', h', links'⟩, hr, rfl⟩ :=
        Option.map_eq_some_iff.mp hs
      obtain ⟨hroutes, hdata, hsound⟩ := muxRead_spec
        (hinv.sound_live hmsg) hinv.routes hr
      exact hinv.object (live_eq_some hmsg) hroutes (fun _ => hdata) hsound
  | pipe k a =>
      rw [MsgSys.step] at hs
      split at hs
      · next ha =>
          obtain ⟨l, hl, hs⟩ := Option.bind_eq_some_iff.mp hs
          obtain ⟨sys, hsys, rfl⟩ := Option.map_eq_some_iff.mp hs
          obtain ⟨hInv, hrefs⟩ := (hinv.routes l
            (List.mem_of_getElem? hl)).internal ha (.of_step hsys)
          exact hinv.route hl hInv fun rest hrest => by rwa [hrefs]
      · cases hs
  | delete k =>
      obtain ⟨l, hl, hs⟩ := Option.bind_eq_some_iff.mp hs
      obtain ⟨sys, hsys, hs⟩ := Option.bind_eq_some_iff.mp hs
      obtain ⟨msgs, hmsgs, rfl⟩ := Option.map_eq_some_iff.mp hs
      have hroute := hinv.routes l (List.mem_of_getElem? hl)
      obtain ⟨hInv, hnil, hcore⟩ := hroute.delete (.of_step hsys)
      rw [Ypipe.purge_eq hroute.sleep.proto, Option.some.injEq] at hmsgs
      refine hinv.route hl hInv fun rest hrest => ?_
      rw [hcore] at hrest
      rw [hnil, List.nil_append, ← hmsgs]
      exact sound_destroyAll hrest

theorem Inv.run {as : List MsgAct}
    (h : Run MsgSys.step Few MsgSys.start as s) : Inv s :=
  h.invariant (fun _ _ _ hI hok hs => Inv.step hI hok hs) .start

/-! ## The counters -/

/-- The block `b` of content number `a` against the handles to that content:
they are all shared and the counter is their number, or there is just one; the
content is freed, and its free function called, when none is left, and once. -/
structure CountedExactly (s : MsgSys) (a : Nat) (b : Block) : Prop where
  shared : (∃ r ∈ refsTo s.handles a, r.shared = true) →
    (∀ r ∈ refsTo s.handles a, r.shared = true) ∧
      b.content.refcount = (refsTo s.handles a).length
  sole : b.frees = 0 → (∀ r ∈ refsTo s.handles a, r.shared = false) →
    (refsTo s.handles a).length = 1
  frees : b.frees = if refsTo s.handles a = [] then 1 else 0
  ffnCalls : b.ffnCalls =
    if refsTo s.handles a = [] ∧ b.content.ffn.isSome then 1 else 0

theorem Inv.countedExactly {a : Nat} {b : Block} (hinv : Inv s)
    (hb : s.heap.blocks[a]? = some b) : CountedExactly s a b := by
  have honce := hinv.sound.once b (List.mem_of_getElem? hb)
  have hlen := length_refsTo s.handles a
  have hcount := hinv.sound.exact a
  have hcell : s.heap.cell a =
      if b.frees = 0 then some b.content.refcount else none := by
    simp only [Heap.cell, Heap.block, hb, Option.filter_some]
    split <;> simp_all
  by_cases h0 : b.frees = 0
  · have hcalls : b.ffnCalls = 0 := by omega
    rw [hcell, if_pos h0] at hcount
    cases hcount with
    | sole c hs hu =>
        have hne : refsTo s.handles a ≠ [] :=
          List.ne_nil_of_length_pos (by omega)
        refine ⟨?_, fun _ _ => by omega, by simp [h0, hne],
          by simp [hcalls, hne]⟩
        rintro ⟨r, hr, hshared⟩
        have hpos := count_pos_of_refsTo hr
        rw [hshared] at hpos
        omega
    | shared hs hpos hu =>
        have hne : refsTo s.handles a ≠ [] :=
          List.ne_nil_of_length_pos (by omega)
        have hall : ∀ r ∈ refsTo s.handles a, r.shared = true := by
          intro r hr
          have hr' := count_pos_of_refsTo hr
          cases hsh : r.shared with
          | true => rfl
          | false =>
              rw [hsh] at hr'
              omega
        refine ⟨fun _ => ⟨hall, by omega⟩, ?_, by simp [h0, hne],
          by simp [hcalls, hne]⟩
        intro _ hnone
        obtain ⟨r, hr⟩ := List.exists_mem_of_ne_nil _ hne
        have hfalse := hnone r hr
        rw [hall r hr] at hfalse
        cases hfalse
  · rw [hcell, if_neg h0] at hcount
    cases hcount with
    | absent hs hu =>
        have hnil : refsTo s.handles a = [] :=
          List.length_eq_zero_iff.mp (by omega)
        obtain ⟨h1, h2⟩ : b.frees = 1 ∧
            b.ffnCalls = if b.content.ffn.isSome then 1 else 0 :=
          honce.resolve_left fun h => h0 h.1
        exact ⟨by simp [hnil], fun h => (h0 h).elim, by simp [h1, hnil],
          by simp [h2, hnil]⟩

/-- Reference counting is exact.  In every run of calls on messages, publishers,
muxes and pipes with fewer than `2^32` handles: the handles to every content
are counted exactly, it is freed exactly once and when its last handle has
gone, every handle points to a content that was allocated, and no pointer to a
freed one was ever followed. -/
theorem refcounts_exact {as : List MsgAct} (h : Run step Few start as s) :
    (∀ a b, s.heap.blocks[a]? = some b → CountedExactly s a b) ∧
    (∀ r ∈ s.handles, ∃ b, s.heap.blocks[r.target]? = some b ∧ b.frees = 0) ∧
    s.heap.fault = false := by
  have hinv := Inv.run h
  refine ⟨fun a b hb => hinv.countedExactly hb, ?_, hinv.sound.noFault⟩
  intro r hr
  obtain ⟨b, hb⟩ := hinv.sound.block_of_mem (a := r.target) (b := r.shared) hr
  exact ⟨b, Heap.block_eq_some.mp hb⟩

/-- A message of forty bytes is copied, the original published to two pipes,
one of which is read: three handles share the content. -/
theorem refcounts_exact_fan_out :
    ∃ s b, Run step Few start
        [.declare .gap, .declare .gap, .declare .gap, .newMux, .newMux,
          .connect 0 0 ⟨-1, 0, 0⟩ ⟨-1, 0, 0⟩,
          .connect 0 1 ⟨-1, 0, 0⟩ ⟨-1, 0, 0⟩,
          .init 0 40, .init 1 0, .init 2 0, .copy 0 1, .write 0 0,
          .pipe 0 .flush, .pipe 0 .cas, .pipe 0 .resume, .read 0 2] s ∧
      s.heap.blocks[0]? = some b ∧ b.content.refcount = 3 ∧
      (refsTo s.handles 0).length = 3 ∧ CountedExactly s 0 b := by
  have hexec : (exec step Few start
      [.declare .gap, .declare .gap, .declare .gap, .newMux, .newMux,
        .connect 0 0 ⟨-1, 0, 0⟩ ⟨-1, 0, 0⟩,
        .connect 0 1 ⟨-1, 0, 0⟩ ⟨-1, 0, 0⟩,
        .init 0 40, .init 1 0, .init 2 0, .copy 0 1, .write 0 0,
        .pipe 0 .flush, .pipe 0 .cas, .pipe 0 .resume, .read 0 2]).any
      (fun s => decide ((refsTo s.handles 0).length = 3 ∧
        s.heap.blocks = [⟨⟨.inline, 40, none, 3⟩, 0, 0⟩])) = true := by
    decide +kernel
  obtain ⟨s, hrun, hlen, hblocks⟩ := Run.of_exec_any hexec
  have hb : s.heap.blocks[0]? = some ⟨⟨.inline, 40, none, 3⟩, 0, 0⟩ := by
    rw [hblocks]
    rfl
  exact ⟨s, _, hrun, hb, rfl, hlen, (refcounts_exact hrun).1 0 _ hb⟩

end MsgSys

end ZeroMQ
