import ZeroMQ.Engine.Held
import ZeroMQ.Engine.LivePipes
import ZeroMQ.Message.Balancer
import ZeroMQ.Message.Mux

/-!
# The ends of the pipes

The muxes and demuxes of the engines are lists of ends of pipes: the messages
that a reader will find, the room that a writer has.  The modules on messages
have `mux_t`, `publisher_t` and `load_balancer_t` over the pipes themselves.
These are two levels of one design.  A pipe has an end on either side, and what a
call does to the pipes it does to their ends.

`LiveMux` lies in between: its ends know whether the reader is awake.

## Main definitions

* `PipeSys.readerEnd`, `Pipe.writerEnd` — the ends of a pipe.

## Main results

* `LiveMux.read_seen` — `LiveMux` refines `PipeMux`.
* `MuxState.read_refines` — `MuxState` does, and with it `muxRead`.
* `publisherWrite_refines` — `publisherWrite` refines `Publisher`.
* `LoadBalancer.write_refines` — `LoadBalancer` refines `Balancer`.
-/

namespace ZeroMQ

open ZeroMQ.Lib

/-! ## `mux_t` -/

/-- A dead pipe is not looked at, and might as well be empty. -/
def LiveEnd.seen (p : LiveEnd) : ReaderEnd :=
  { p.toReaderEnd with queue := if p.alive then p.queue else [] }

theorem LiveEnd.read_seen (p : LiveEnd) :
    p.seen.read = (p.read.1, p.read.2.seen) := by
  obtain ⟨⟨pipe, queue, terminating⟩, alive, delimited⟩ := p
  cases alive with
  | false => rfl
  | true =>
      cases queue with
      | nil => rfl
      | cons msg rest => cases msg <;> rfl

namespace LiveMux

def seen (m : LiveMux) : PipeMux := ⟨m.pipes.map LiveEnd.seen, m.current⟩

theorem readLoop_seen (k : Nat) (m : LiveMux) :
    m.seen.readLoop k = ((m.readLoop k).1, (m.readLoop k).2.seen) := by
  induction k generalizing m with
  | zero => rfl
  | succ k ih =>
      unfold PipeMux.readLoop LiveMux.readLoop
      by_cases hc : m.current < m.pipes.length
      · have hget : m.seen.pipes[m.seen.current]? =
            some m.pipes[m.current].seen := by simp [seen, hc]
        have hnext : ∀ p : LiveEnd, PipeMux.mk
            (m.seen.pipes.set m.seen.current p.seen)
            (if m.seen.current + 1 = m.seen.pipes.length then 0
              else m.seen.current + 1) = (m.next p hc).seen := by
          intro p
          simp [seen, next, List.map_set]
        rw [hget, dif_pos hc]
        dsimp only
        rw [LiveEnd.read_seen, hnext]
        rcases m.pipes[m.current].read with ⟨_ | message, p⟩
        · exact ih (m.next p hc)
        · rfl
      · have hget : m.seen.pipes[m.seen.current]? = none := by
          simpa [seen] using hc
        rw [hget, dif_neg hc]

/-- A mux over live pipes calls and answers as one over what is seen of them. -/
theorem read_seen (m : LiveMux) :
    Mux.read m.seen = ((Mux.read m).1, (Mux.read m).2.seen) ∧
      Mux.empty m.seen = Mux.empty m ∧
      Mux.initialiseShutdown m.seen = (Mux.initialiseShutdown m).seen := by
  refine ⟨?_, List.isEmpty_map, ?_⟩
  · show m.seen.readLoop (m.pipes.map LiveEnd.seen).length = _
    rw [List.length_map]
    exact readLoop_seen m.pipes.length m
  · simp [seen, Mux.initialiseShutdown, LiveEnd.seen,
      ReaderEnd.terminateReader]

end LiveMux

/-- What the encoder gets. -/
def RawMsg.bytes : RawMsg Message → Message
  | .data message => message
  | _ => []

/-- The end of the reader.  The name of the pipe has no part in this. -/
def PipeSys.readerEnd (s : PipeSys Message) : ReaderEnd :=
  ⟨0, s.flushed, s.pipe.readerTerminating⟩

theorem PipeSys.readCall_end {s s' : PipeSys Message} {msg msg' : RawMsg Message}
    {b : Bool} (h : s.readCall msg = some (b, msg', s')) (hinv : s.SleepInv) :
    s.readerEnd.read =
      (if b then some msg'.bytes else none, s'.readerEnd) := by
  have hcases := readCall_cases h hinv
  cases b with
  | true =>
      unfold readerEnd ReaderEnd.read
      rw [hcases.flushed, hcases.terminating]
      cases msg' with
      | delimiter => cases hcases.payload
      | gap | data message => rfl
  | false =>
      unfold readerEnd ReaderEnd.read
      rcases hcases.flushed with ⟨hnil, hnil', hterm⟩ | ⟨hdelimiter, hterm⟩
      · rw [hnil, hnil', hterm]
        rfl
      · rw [hdelimiter, hterm]
        rfl

namespace MuxState

variable {m m' : MuxState Message} {msg msg' zero : RawMsg Message} {b : Bool}

def ends (m : MuxState Message) : PipeMux :=
  ⟨m.pipes.map PipeSys.readerEnd, m.current⟩

theorem readLoop_ends {k : Nat} (hsleep : ∀ p ∈ m.pipes, p.SleepInv)
    (h : m.readLoop k msg = some (b, msg', m')) :
    m.ends.readLoop k = (if b then some msg'.bytes else none, m'.ends) := by
  induction k generalizing m msg with
  | zero =>
      cases h
      rfl
  | succ k ih =>
      rw [MuxState.readLoop] at h
      obtain ⟨p, hp, h⟩ := Option.bind_eq_some_iff.mp h
      obtain ⟨⟨retrieved, msg₁, p'⟩, hread, h⟩ := Option.bind_eq_some_iff.mp h
      have hpipe := hsleep p (List.mem_of_getElem? hp)
      have hget : m.ends.pipes[m.ends.current]? = some p.readerEnd := by
        simp [ends, hp]
      unfold PipeMux.readLoop
      rw [hget]
      dsimp only
      rw [PipeSys.readCall_end hread hpipe]
      cases retrieved with
      | true =>
          cases h
          simp [ends, List.map_set]
      | false =>
          have hnext := ih (forall_mem_set hsleep
            (PipeSys.readCall_spec hread hpipe).1) h
          simpa [ends, List.map_set] using hnext

theorem read_refines (hinv : m.Inv) (h : m.read zero msg = some (b, msg', m')) :
    Mux.read m.ends = (if b then some msg'.bytes else none, m'.ends) := by
  obtain ⟨⟨b₁, msg₁, m₁⟩, hloop, heq⟩ := Option.map_eq_some_iff.mp h
  show m.ends.readLoop (m.pipes.map PipeSys.readerEnd).length = _
  rw [List.length_map, readLoop_ends hinv.sleep hloop]
  cases b₁ <;> cases heq <;> rfl

end MuxState

/-! ## The demuxes -/

namespace Pipe

variable {M : Type} {p q : Pipe M}

/-- The end of the writer.  There is no limit if the high watermark is infinite,
or if there is a data dam. -/
def writerEnd (pipe : Nat) (p : Pipe M) : WriterEnd :=
  { pipe := pipe
    room :=
      if p.hwm = 0 ∨ p.dataDam.isSome = true then none
      else some (sizeT p.hwm - p.inCoreMsgCnt)
    writerTerminating := p.writerTerminating }

theorem checkWrite_writerEnd (pipe : Nat) (p : Pipe M) :
    (p.writerEnd pipe).checkWrite = p.checkWrite := by
  unfold WriterEnd.checkWrite Pipe.checkWrite writerEnd
  by_cases hfree : p.hwm = 0 ∨ p.dataDam.isSome = true
  · rcases hfree with hfree | hfree <;> simp [hfree]
  · obtain ⟨hhwm, hdam⟩ := not_or.mp hfree
    rw [if_neg hfree, Bool.eq_iff_iff]
    simp [hhwm, hdam, Nat.sub_eq_zero_iff_le]

theorem writerEnd_write {msg : RawMsg M} (h : p.write msg = some q)
    (hcheck : p.checkWrite = true) (pipe : Nat) :
    q.writerEnd pipe = (p.writerEnd pipe).write := by
  rcases (Pipe.write_cases h).2 with ⟨d, hd, -, -, rfl⟩ | ⟨-, -, rfl⟩
  · simp [writerEnd, WriterEnd.write, hd]
  · by_cases hfree : p.hwm = 0 ∨ p.dataDam.isSome = true
    · simp [writerEnd, WriterEnd.write, storeCore, hfree]
    · have hlt : p.inCoreMsgCnt < sizeT p.hwm := by
        simpa [checkWrite, not_or.mp hfree] using hcheck
      have hsize := sizeT_lt p.hwm
      have hcnt : u64 (p.inCoreMsgCnt + 1) = p.inCoreMsgCnt + 1 :=
        u64_of_lt (by omega)
      simp only [writerEnd, WriterEnd.write, storeCore, hfree, hcnt, if_false,
        Option.map_some]
      rfl

end Pipe

section Publisher

variable {p : Nat} {links links' : List Route} {msg msg' : RawMessage}

/-- The pipes of a publisher, named by the muxes at their other ends. -/
def writerEnds (p : Nat) (links : List Route) : List WriterEnd :=
  (links.filter fun l => l.feeds p).map fun l => l.sys.pipe.writerEnd l.mux

theorem writerEnds_cons {l : Route} (hfeeds : l.feeds p = true)
    (links : List Route) : writerEnds p (l :: links) =
      l.sys.pipe.writerEnd l.mux :: writerEnds p links := by
  simp [writerEnds, hfeeds]

theorem writerEnds_writeAll (h : writeAll p msg links = some links')
    (hroom : (writerEnds p links).all WriterEnd.checkWrite = true) :
    writerEnds p links' = (writerEnds p links).map WriterEnd.write := by
  induction links generalizing links' with
  | nil =>
      cases h
      rfl
  | cons l ls ih =>
      obtain ⟨l', hl, h⟩ := Option.bind_eq_some_iff.mp h
      obtain ⟨ls', hls, rfl⟩ := Option.map_eq_some_iff.mp h
      by_cases hfeeds : l.feeds p = true
      · rw [if_pos hfeeds] at hl
        obtain ⟨_, hl⟩ := Option.ite_none_right_eq_some.mp hl
        obtain ⟨q, hq, rfl⟩ := Option.map_eq_some_iff.mp hl
        rw [writerEnds_cons hfeeds] at hroom ⊢
        rw [List.all_cons, Bool.and_eq_true, Pipe.checkWrite_writerEnd] at hroom
        obtain ⟨hcheck, hrest⟩ := hroom
        rw [List.map_cons, ← ih hls hrest, ← Pipe.writerEnd_write hq hcheck]
        exact writerEnds_cons
          (l := { l with sys := { l.sys with pipe := q } }) hfeeds ls'
      · rw [if_neg hfeeds] at hl
        cases hl
        have hskip : ∀ ls, writerEnds p (l :: ls) = writerEnds p ls := by
          simp [writerEnds, hfeeds]
        rw [hskip] at hroom ⊢
        rw [hskip, ih hls hroom]

/-- `publisher_t::write` asks the pipes for room and writes to all of them or to
none; it does so to their ends. -/
theorem publisherWrite_refines {h h' : Heap} {b : Bool}
    (hmsg : msg.isDelimiter = false)
    (hw : publisherWrite p msg h links = some (b, msg', h', links'))
    (message : Message) :
    IDemux.write (⟨writerEnds p links⟩ : Publisher) message =
      (b, ⟨writerEnds p links'⟩) := by
  have hall : (writerEnds p links).all WriterEnd.checkWrite =
      !links.any fun l => l.feeds p && !l.sys.pipe.checkWrite := by
    simp [writerEnds, Pipe.checkWrite_writerEnd, List.not_any_eq_all_not]
  simp only [publisherWrite, hmsg, Bool.false_eq_true, if_false] at hw
  split at hw
  · next hnone =>
      cases hw
      have hnil : writerEnds p links = [] := by
        simpa [writerEnds, List.countP_eq_zero] using hnone
      rw [hnil]
      rfl
  · split at hw
    · next hfull =>
        cases hw
        exact if_neg (by rw [hall, hfull]; decide)
    · next hroom =>
        have hroom : (writerEnds p links).all WriterEnd.checkWrite = true := by
          rw [hall, Bool.eq_false_iff.mpr hroom]
          rfl
        have hlast : ∀ copy heap, (writeAll p copy links).map (fun ls =>
            (true, (rawMessageInit copy 0 heap).1,
              (rawMessageInit copy 0 heap).2, ls)) =
                some (b, msg', h', links') →
            IDemux.write (⟨writerEnds p links⟩ : Publisher) message =
              (b, ⟨writerEnds p links'⟩) := by
          intro copy heap hmap
          obtain ⟨ls, hls, heq⟩ := Option.map_eq_some_iff.mp hmap
          cases heq
          rw [writerEnds_writeAll hls hroom]
          exact if_pos hroom
        split at hw
        · exact hlast _ _ hw
        · split at hw
          · exact hlast _ _ hw
          · exact hlast _ _ hw

end Publisher

namespace LoadBalancer

variable {b b' : LoadBalancer} {mem mem' : PipeMem} {found : Bool}

def ends (mem : PipeMem) (b : LoadBalancer) : Balancer :=
  ⟨b.pipes.map fun p => (mem p).writerEnd p, b.current⟩

theorem findWritable_ends {k : Nat}
    (h : b.findWritable mem k = some (found, b')) :
    if found then ∃ p, b.pipes[b'.current]? = some p ∧
        (mem p).checkWrite = true ∧ b'.pipes = b.pipes ∧
        (b.ends mem).writeLoop k =
          (true, ⟨(b.ends mem).pipes.set b'.current ((mem p).writerEnd p).write,
            (b'.current + 1) % b.pipes.length⟩)
    else (b.ends mem).writeLoop k = (false, b'.ends mem) := by
  induction k generalizing b with
  | zero =>
      cases h
      rfl
  | succ k ih =>
      rw [findWritable] at h
      obtain ⟨p, hp, h⟩ := Option.bind_eq_some_iff.mp h
      have hget : (b.ends mem).pipes[(b.ends mem).current]? =
          some ((mem p).writerEnd p) := by simp [ends, hp]
      have hlen : (b.ends mem).pipes.length = b.pipes.length :=
        List.length_map ..
      unfold Balancer.writeLoop
      rw [hget, hlen]
      dsimp only
      rw [Pipe.checkWrite_writerEnd]
      by_cases hw : (mem p).checkWrite = true
      · rw [if_pos hw] at h ⊢
        cases h
        exact ⟨p, hp, hw, rfl, rfl⟩
      · rw [if_neg hw] at h ⊢
        exact ih h

theorem ends_update {p c : Nat} (hnodup : b.pipes.Nodup)
    (hp : b.pipes[c]? = some p) (q : Pipe Handle) :
    (b.ends (Function.update mem p q)).pipes =
      (b.ends mem).pipes.set c (q.writerEnd p) := by
  have hend : (fun p' => (Function.update mem p q p').writerEnd p') =
      Function.update (fun p' => (mem p').writerEnd p') p (q.writerEnd p) := by
    funext p'
    by_cases hne : p' = p
    · subst hne
      simp
    · simp [hne]
  obtain ⟨hlt, rfl⟩ := List.getElem?_eq_some_iff.mp hp
  show b.pipes.map _ = _
  rw [hend, hnodup.map_update, if_pos (List.getElem_mem hlt),
    hnodup.idxOf_getElem]
  rfl

/-- `load_balancer_t::write` chooses the pipe that the engine's does. -/
theorem write_refines {msg msg' : RawMessage} {h h' : Heap} {taken : Bool}
    (hnodup : b.pipes.Nodup) (hmsg : msg.isDelimiter = false)
    (hw : b.write msg h mem = some (taken, msg', h', b', mem'))
    (message : Message) :
    IDemux.write (b.ends mem) message = (taken, b'.ends mem') := by
  rw [LoadBalancer.write, if_neg (by simp [hmsg])] at hw
  show (b.ends mem).writeLoop (b.pipes.map _).length = _
  rw [List.length_map]
  split at hw
  · next hnil =>
      cases hw
      rw [hnil]
      rfl
  · obtain ⟨⟨found, b₁⟩, hfind, hw⟩ := Option.bind_eq_some_iff.mp hw
    have hends := findWritable_ends hfind
    cases found with
    | false =>
        cases hw
        exact hends
    | true =>
        obtain ⟨p, hp, hcheck, hpipes, hloop⟩ := hends
        simp only [hpipes, hp, Bool.not_true, Bool.false_eq_true, if_false,
          Option.bind_some] at hw
        obtain ⟨q, hq, heq⟩ := Option.map_eq_some_iff.mp hw
        cases heq
        rw [hloop, ← Pipe.writerEnd_write hq hcheck, ← ends_update hnodup hp]
        rfl

end LoadBalancer

end ZeroMQ
