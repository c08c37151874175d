import ZeroMQ.Lib.Run
import ZeroMQ.Queue.Statements

/-!
# `yqueue_t` under every interleaving of its two threads

There is no lock in `yqueue_t`: its two threads stay apart because each has
members of its own and because one element always stays in the queue.  `push`
allocates a chunk as soon as it has taken the last slot of one, so that the link
`pop` follows from there has been set before there is a newer element.

`YqueueSys` has the statements of `ZeroMQ.Queue.Statements` in any order of the
two threads, and any addresses that `new` may return, those of freed chunks
included.  `Inv` says what the members are at each statement.

## Main definitions

* `YqueueSys.step` — the interleavings.
* `YqueueSys.Sound` — what the queue is for.

## Main results

* `YqueueSys.Inv.step` — the invariant.
* `YqueueSys.Inv.rep` — between two calls the queue is that of `Yqueue.Rep`.
* `YqueueSys.Inv.run_push`, `YqueueSys.Inv.run_pop` — uninterrupted, the
  statements are `Yqueue.push` and `Yqueue.pop`.
* `yqueue_sound` — front and back, stable and distinct slots, disjoint cells and
  the list of chunks, in every state of every interleaving.
-/

namespace ZeroMQ

open ZeroMQ.Lib

/-! ## The two threads -/

/-- The queue, where its two threads are, and what has happened: the numbers of
`push`es and `pop`s that are complete, what `&back ()` was after each `push`, and
the values that have been assigned to the elements. -/
structure YqueueSys (T : Type) where
  queue : Yqueue T
  pusher : PushPc
  popper : PopPc
  pushes : Nat
  pops : Nat
  slots : List SlotPtr
  content : Nat → Option T

/-- A statement of `push`, with what `new` returns; a statement of `pop`; and an
assignment to `back ()`. -/
inductive YqueueAct (T : Type) where
  | push (fresh : Addr)
  | pop
  | store (v : T)

namespace YqueueSys

open Yqueue

variable {T : Type}

def start (fresh : Addr) : YqueueSys T :=
  { queue := create fresh, pusher := .idle, popper := .idle, pushes := 0,
    pops := 0, slots := [], content := fun _ => none }

/-- A call of `push` is complete when it is idle again. -/
def push (N : Nat) (s : YqueueSys T) (fresh : Addr) : Option (YqueueSys T) :=
  (s.queue.pushStep N fresh s.pusher).map fun r =>
    if r.2 = .idle then
      { s with
        queue := r.1, pusher := r.2, pushes := s.pushes + 1
        slots := s.slots ++ [r.1.back] }
    else { s with queue := r.1, pusher := r.2 }

def pop (N : Nat) (s : YqueueSys T) : Option (YqueueSys T) :=
  (s.queue.popStep N s.popper).map fun r =>
    if r.2 = .idle then { s with queue := r.1, popper := r.2, pops := s.pops + 1 }
    else { s with queue := r.1, popper := r.2 }

/-- `back () = v`. -/
def store (s : YqueueSys T) (v : T) : YqueueSys T :=
  { s with
    queue := s.queue.store s.queue.back v
    content := fun i => if i = s.pushes - 1 then some v else s.content i }

def step (N : Nat) (s : YqueueSys T) : YqueueAct T → Option (YqueueSys T)
  | .push fresh => s.push N fresh
  | .pop => s.pop N
  | .store v =>
      if s.pusher = .idle ∧ 0 < s.pushes then some (s.store v) else none

/-- There are never more `pop`s than complete `push`es minus one. -/
def Allowed (s : YqueueSys T) : YqueueAct T → Prop
  | .pop => s.popper = .idle → s.pops + 1 ≤ s.pushes - 1
  | _ => True

instance (s : YqueueSys T) (act : YqueueAct T) : Decidable (s.Allowed act) :=
  match act with
  | .push _ => .isTrue trivial
  | .pop => inferInstanceAs (Decidable (s.popper = .idle → _))
  | .store _ => .isTrue trivial

/-! ### The invariant -/

/-- The members of `push` when `e` calls are complete. -/
def PushAt (N : Nat) (q : Yqueue T) (chunk : Nat → Addr) (e : Nat) :
    PushPc → Prop
  | .idle => q.endChunk = some (chunk (e / N)) ∧ q.endPos = e % N ∧
      (0 < e → q.back = slot N chunk (e - 1))
  | .backPos => q.endChunk = some (chunk (e / N)) ∧ q.endPos = e % N ∧
      q.backChunk = some (chunk (e / N))
  | .count => q.endChunk = some (chunk (e / N)) ∧ q.endPos = e % N ∧
      q.back = slot N chunk e
  | .alloc => q.endChunk = some (chunk (e / N)) ∧ e % N + 1 = N ∧
      q.back = slot N chunk e
  | .link new => q.endChunk = some (chunk (e / N)) ∧ e % N + 1 = N ∧
      q.back = slot N chunk e ∧ new = chunk (e / N + 1)
  | .follow => q.endChunk = some (chunk (e / N)) ∧ e % N + 1 = N ∧
      q.back = slot N chunk e
  | .rewind => q.endChunk = some (chunk (e / N + 1)) ∧ e % N + 1 = N ∧
      q.back = slot N chunk e

/-- The members of `pop` when `f` calls are complete. -/
def PopAt (N : Nat) (q : Yqueue T) (chunk : Nat → Addr) (f : Nat) :
    PopPc → Prop
  | .idle => q.beginChunk = some (chunk (f / N)) ∧ q.beginPos = f % N
  | .save => q.beginChunk = some (chunk (f / N)) ∧ f % N + 1 = N
  | .follow o => q.beginChunk = some (chunk (f / N)) ∧ f % N + 1 = N ∧
      o = chunk (f / N)
  | .rewind o => q.beginChunk = some (chunk (f / N + 1)) ∧ f % N + 1 = N ∧
      o = chunk (f / N)
  | .delete o => q.beginChunk = some (chunk (f / N + 1)) ∧ f % N + 1 = N ∧
      o = chunk (f / N) ∧ q.beginPos = 0

/-- The chunks that `push` has allocated, and linked, ahead of time. -/
def allocated : PushPc → Nat
  | .link _ | .follow | .rewind => 1
  | _ => 0

def linked : PushPc → Nat
  | .follow | .rewind => 1
  | _ => 0

/-- What every statement keeps. -/
structure Inv (N : Nat) (s : YqueueSys T) (chunk : Nat → Addr) : Prop where
  spine : Spine s.queue.heap chunk (s.pops / N)
    (s.pushes / N + linked s.pusher) (s.pushes / N + allocated s.pusher)
  pusher : PushAt N s.queue chunk s.pushes s.pusher
  popper : PopAt N s.queue chunk s.pops s.popper
  ahead : s.pops < s.pushes ∨ s.pops = 0
  busy : s.popper ≠ .idle → s.pops + 2 ≤ s.pushes
  slots : s.slots = (List.range s.pushes).map (slot N chunk)
  kept : ∀ i v, s.pops ≤ i → i < s.pushes → s.content i = some v →
    s.queue.load (slot N chunk i) = some v
  unset : ∀ i, s.pushes ≤ i → s.content i = none

variable {N : Nat} {s s' : YqueueSys T} {chunk : Nat → Addr} {fresh : Addr}
  {q : Yqueue T} {i : Nat}

theorem div_le_top (hi : i ≤ s.pushes) :
    i / N ≤ s.pushes / N + allocated s.pusher :=
  Nat.le_trans (Nat.div_le_div_right hi) (Nat.le_add_right _ _)

theorem load_congr {q q' : Yqueue T} (h : q'.heap = q.heap) (p : SlotPtr) :
    q'.load p = q.load p := by
  rw [load, load, h]

theorem back_eq_some {a : Addr} (h : q.back = some (a, i)) :
    q.backChunk = some a ∧ q.backPos = i := by
  obtain ⟨b, hb, heq⟩ := Option.map_eq_some_iff.mp h
  cases heq
  exact ⟨hb, rfl⟩

theorem PushAt.congr {q q' : Yqueue T} {e : Nat} {pc : PushPc}
    (h : PushAt N q chunk e pc) (hend : q'.endChunk = q.endChunk)
    (hpos : q'.endPos = q.endPos) (hback : q'.backChunk = q.backChunk)
    (hbackPos : q'.backPos = q.backPos) : PushAt N q' chunk e pc := by
  have hsame : q'.back = q.back := by rw [back, back, hback, hbackPos]
  cases pc <;> simpa only [PushAt, hend, hpos, hback, hsame] using h

theorem PopAt.congr {q q' : Yqueue T} {chunk' : Nat → Addr} {f : Nat} {pc : PopPc}
    (h : PopAt N q chunk f pc) (hbegin : q'.beginChunk = q.beginChunk)
    (hpos : q'.beginPos = q.beginPos) (hfirst : chunk' (f / N) = chunk (f / N))
    (hnext : pc ≠ .idle → chunk' (f / N + 1) = chunk (f / N + 1)) :
    PopAt N q' chunk' f pc := by
  cases pc with
  | idle | save | follow o => simpa only [PopAt, hbegin, hpos, hfirst] using h
  | rewind o | delete o =>
      simpa only [PopAt, hbegin, hpos, hfirst, hnext (by simp)] using h

namespace Inv

theorem pops_le (h : Inv N s chunk) : s.pops ≤ s.pushes := by
  have hahead := h.ahead
  omega

/-- A `pop` that goes on to the next chunk finds it there. -/
theorem next_le (h : Inv N s chunk) (hN : 0 < N) (hbusy : s.popper ≠ .idle) :
    s.pops / N + 1 ≤ s.pushes / N := by
  have hroom := h.busy hbusy
  have hat := h.popper
  have hlast : s.pops % N + 1 = N := by
    cases hpc : s.popper with
    | idle => exact (hbusy hpc).elim
    | save =>
        rw [hpc] at hat
        exact hat.2
    | follow o | rewind o | delete o =>
        rw [hpc] at hat
        exact hat.2.1
  rw [← (succ_div_mod_of_last hN hlast).1]
  exact Nat.div_le_div_right (by omega)

theorem start (fresh : Addr) :
    Inv N (start fresh : YqueueSys T) (fun _ => fresh) := by
  have hrep : Rep N (create fresh : Yqueue T) 0 0 (fun _ => fresh) := .create fresh
  exact
    { spine := hrep.spine
      pusher := ⟨hrep.endChunk, hrep.endPos, fun h => (Nat.lt_irrefl 0 h).elim⟩
      popper := ⟨hrep.beginChunk, hrep.beginPos⟩
      ahead := .inr rfl
      busy := fun h => (h rfl).elim
      slots := rfl
      kept := fun i v _ h => (Nat.not_lt_zero i h).elim
      unset := fun _ _ => rfl }

/-! ### `push` -/

/-- A statement of `push` on its own members. -/
theorem pushStay (h : Inv N s chunk) {pc : PushPc}
    (hheap : q.heap = s.queue.heap) (hbegin : q.beginChunk = s.queue.beginChunk)
    (hpos : q.beginPos = s.queue.beginPos) {pc₀ : PushPc} (hpc : s.pusher = pc₀)
    (hcount : allocated pc = allocated pc₀ ∧ linked pc = linked pc₀)
    (hat : PushAt N q chunk s.pushes pc) :
    Inv N { s with queue := q, pusher := pc } chunk where
  spine := by
    have hspine := h.spine
    rw [hpc, ← hcount.1, ← hcount.2, ← hheap] at hspine
    exact hspine
  pusher := hat
  popper := h.popper.congr hbegin hpos rfl fun _ => rfl
  ahead := h.ahead
  busy := h.busy
  slots := h.slots
  kept i v hi hlt hv := by
    rw [load_congr hheap]
    exact h.kept i v hi hlt hv
  unset := h.unset

theorem pushDone (h : Inv N s chunk) (hheap : q.heap = s.queue.heap)
    (hbegin : q.beginChunk = s.queue.beginChunk)
    (hpos : q.beginPos = s.queue.beginPos)
    (hlinked : (s.pushes + 1) / N = s.pushes / N + linked s.pusher)
    (halloc : (s.pushes + 1) / N = s.pushes / N + allocated s.pusher)
    (hat : PushAt N q chunk (s.pushes + 1) .idle) :
    Inv N
      { s with
        queue := q, pusher := .idle, pushes := s.pushes + 1
        slots := s.slots ++ [q.back] } chunk where
  spine := by
    have hspine := h.spine
    rw [← hlinked, ← halloc, ← hheap] at hspine
    exact hspine
  pusher := hat
  popper := h.popper.congr hbegin hpos rfl fun _ => rfl
  ahead := by
    have hle := h.pops_le
    exact .inl (by dsimp only; omega)
  busy hbusy := Nat.le_succ_of_le (h.busy hbusy)
  slots := by
    have hback : q.back = slot N chunk s.pushes := hat.2.2 (Nat.succ_pos _)
    rw [List.range_succ, List.map_append, h.slots, hback]
    rfl
  kept i v hi hlt hv := by
    rw [load_congr hheap]
    rcases Nat.lt_or_eq_of_le (Nat.lt_succ_iff.mp hlt) with hold | rfl
    · exact h.kept i v hi hold hv
    · rw [h.unset _ (Nat.le_refl _)] at hv
      cases hv
  unset i hi := h.unset i (by dsimp only at hi; omega)

/-- `new chunk_t`. -/
theorem pushAlloc (h : Inv N s chunk) (hN : 0 < N) (hpc : s.pusher = .alloc)
    (hfresh : s.queue.heap fresh = none) :
    Inv N
      { s with
        queue := { s.queue with heap := setHeap s.queue.heap fresh (some .new) }
        pusher := .link fresh } (extend chunk (s.pushes / N + 1) fresh) := by
  have hle : s.pops / N ≤ s.pushes / N := Nat.div_le_div_right h.pops_le
  have hspine := h.spine
  have hat := h.pusher
  rw [hpc] at hspine hat
  have hslot : ∀ i, i ≤ s.pushes →
      slot N (extend chunk (s.pushes / N + 1) fresh) i = slot N chunk i := by
    intro i hi
    have hdiv : i / N ≤ s.pushes / N := Nat.div_le_div_right hi
    rw [slot, slot, extend_of_lt (by omega)]
  exact
    { h with
      spine := hspine.alloc (Nat.le_succ_of_le hle) hfresh
      pusher := by
        refine ⟨?_, hat.2.1, ?_, (extend_self ..).symm⟩
        · rw [extend_of_lt (Nat.lt_succ_self _)]
          exact hat.1
        · rw [hslot _ (Nat.le_refl _)]
          exact hat.2.2
      popper := by
        refine h.popper.congr rfl rfl (extend_of_lt (by omega)) fun hbusy => ?_
        have hnext := h.next_le hN hbusy
        exact extend_of_lt (by omega)
      slots := by
        refine h.slots.trans (List.map_congr_left fun i hi => ?_)
        exact (hslot i (Nat.le_of_lt (List.mem_range.mp hi))).symm
      kept := fun i v hi hlt hv => by
        have hne : chunk (i / N) ≠ fresh := hspine.ne_fresh hfresh
          (Nat.div_le_div_right hi) (Nat.div_le_div_right (Nat.le_of_lt hlt))
        rw [hslot i (Nat.le_of_lt hlt), ← h.kept i v hi hlt hv]
        simp only [load, slot, Option.bind_some, setHeap_of_ne hne] }

/-- `end_chunk->next = new chunk_t`. -/
theorem pushLink (h : Inv N s chunk) {ch : Chunk T}
    (hpc : s.pusher = .link (chunk (s.pushes / N + 1)))
    (hch : s.queue.heap (chunk (s.pushes / N)) = some ch) :
    Inv N
      { s with
        queue := { s.queue with
          heap := setHeap s.queue.heap (chunk (s.pushes / N))
            (some { ch with next := some (chunk (s.pushes / N + 1)) }) }
        pusher := .follow } chunk := by
  have hat := h.pusher
  rw [hpc] at hat
  have hspine : Spine s.queue.heap chunk (s.pops / N) (s.pushes / N)
      (s.pushes / N + 1) := by
    have hspine := h.spine
    rw [hpc] at hspine
    exact hspine
  have hnext := hspine.setNext (Nat.div_le_div_right h.pops_le)
  rw [hch, Option.map_some] at hnext
  exact
    { h with
      spine := hnext
      pusher := ⟨hat.1, hat.2.1, hat.2.2.1⟩
      popper := h.popper.congr rfl rfl rfl fun _ => rfl
      kept := fun i v hi hlt hv => by
        rw [← h.kept i v hi hlt hv]
        by_cases heq : chunk (i / N) = chunk (s.pushes / N)
        · simp only [load, slot, Option.bind_some, heq, setHeap_self, hch]
        · simp only [load, slot, Option.bind_some, setHeap_of_ne heq] }

theorem push (h : Inv N s chunk) (hN : 0 < N) (hs : s.push N fresh = some s') :
    ∃ chunk', Inv N s' chunk' := by
  have hat := h.pusher
  obtain ⟨⟨q, pc⟩, hq, rfl⟩ := Option.map_eq_some_iff.mp hs
  cases hpc : s.pusher with
  | idle =>
      rw [hpc] at hq hat
      cases hq
      exact ⟨chunk, h.pushStay rfl rfl rfl hpc ⟨rfl, rfl⟩
        ⟨hat.1, hat.2.1, hat.1⟩⟩
  | backPos =>
      rw [hpc] at hq hat
      cases hq
      refine ⟨chunk, h.pushStay rfl rfl rfl hpc ⟨rfl, rfl⟩
        ⟨hat.1, hat.2.1, ?_⟩⟩
      simp only [back, hat.2.1, hat.2.2]
      rfl
  | count =>
      rw [hpc] at hq hat
      obtain ⟨hend, hpos, hback⟩ := hat
      cases hq
      by_cases hlast : s.queue.endPos + 1 = N
      · rw [if_neg (not_not_intro hlast), if_neg (by simp)]
        rw [hpos] at hlast
        exact ⟨chunk, h.pushStay rfl rfl rfl hpc ⟨rfl, rfl⟩ ⟨hend, hlast, hback⟩⟩
      · rw [if_pos hlast, if_pos rfl]
        rw [hpos] at hlast
        obtain ⟨hdiv, hmod⟩ := succ_div_mod_of_inner hN hlast
        refine ⟨chunk, h.pushDone rfl rfl rfl (by rw [hpc]; exact hdiv)
          (by rw [hpc]; exact hdiv) ⟨?_, ?_, fun _ => hback⟩⟩
        · rw [hdiv]
          exact hend
        · rw [hmod, ← hpos]
  | alloc =>
      rw [hpc] at hq
      obtain ⟨hnone, hq⟩ := Option.ite_none_left_eq_some.mp hq
      cases hq
      exact ⟨_, h.pushAlloc hN hpc (Option.not_isSome_iff_eq_none.mp hnone)⟩
  | link new =>
      rw [hpc] at hq hat
      obtain ⟨hend, _, _, rfl⟩ := hat
      obtain ⟨a, ha, hq⟩ := Option.bind_eq_some_iff.mp hq
      obtain ⟨ch, hch, hq⟩ := Option.map_eq_some_iff.mp hq
      cases hq
      rw [hend] at ha
      cases ha
      exact ⟨chunk, h.pushLink hpc hch⟩
  | follow =>
      rw [hpc] at hq hat
      obtain ⟨hend, hlast, hback⟩ := hat
      obtain ⟨a, ha, hq⟩ := Option.bind_eq_some_iff.mp hq
      obtain ⟨ch, hch, hq⟩ := Option.bind_eq_some_iff.mp hq
      obtain ⟨b, hb, hq⟩ := Option.map_eq_some_iff.mp hq
      cases hq
      rw [hend] at ha
      cases ha
      have hlink := h.spine.link (s.pushes / N)
        (Nat.div_le_div_right h.pops_le) (by rw [hpc]; exact Nat.lt_succ_self _)
      rw [hch, Option.bind_some, hb] at hlink
      exact ⟨chunk, h.pushStay rfl rfl rfl hpc ⟨rfl, rfl⟩
        ⟨hlink, hlast, hback⟩⟩
  | rewind =>
      rw [hpc] at hq hat
      obtain ⟨hend, hlast, hback⟩ := hat
      cases hq
      obtain ⟨hdiv, hmod⟩ := succ_div_mod_of_last hN hlast
      refine ⟨chunk, h.pushDone rfl rfl rfl (by rw [hpc]; exact hdiv)
        (by rw [hpc]; exact hdiv) ⟨?_, hmod.symm, fun _ => hback⟩⟩
      rw [hdiv]
      exact hend

/-! ### `pop` -/

/-- A statement of `pop` on its own members. -/
theorem popStay (h : Inv N s chunk) {pc : PopPc} (hheap : q.heap = s.queue.heap)
    (hend : q.endChunk = s.queue.endChunk) (hendPos : q.endPos = s.queue.endPos)
    (hback : q.backChunk = s.queue.backChunk)
    (hbackPos : q.backPos = s.queue.backPos) (hat : PopAt N q chunk s.pops pc)
    (hbusy : s.pops + 2 ≤ s.pushes) :
    Inv N { s with queue := q, popper := pc } chunk where
  spine := by
    rw [hheap]
    exact h.spine
  pusher := h.pusher.congr hend hendPos hback hbackPos
  popper := hat
  ahead := h.ahead
  busy _ := hbusy
  slots := h.slots
  kept i v hi hlt hv := by
    rw [load_congr hheap]
    exact h.kept i v hi hlt hv
  unset := h.unset

theorem popDone (h : Inv N s chunk) (hend : q.endChunk = s.queue.endChunk)
    (hendPos : q.endPos = s.queue.endPos)
    (hback : q.backChunk = s.queue.backChunk)
    (hbackPos : q.backPos = s.queue.backPos)
    (hspine : Spine q.heap chunk ((s.pops + 1) / N)
      (s.pushes / N + linked s.pusher) (s.pushes / N + allocated s.pusher))
    (hat : PopAt N q chunk (s.pops + 1) .idle) (hbusy : s.pops + 2 ≤ s.pushes)
    (hload : ∀ i, s.pops + 1 ≤ i → i < s.pushes →
      q.load (slot N chunk i) = s.queue.load (slot N chunk i)) :
    Inv N { s with queue := q, popper := .idle, pops := s.pops + 1 } chunk where
  spine := hspine
  pusher := h.pusher.congr hend hendPos hback hbackPos
  popper := hat
  ahead := .inl hbusy
  busy hbusy := (hbusy rfl).elim
  slots := h.slots
  kept i v hi hlt hv := by
    rw [hload i hi hlt]
    exact h.kept i v (Nat.le_of_succ_le hi) hlt hv
  unset := h.unset

theorem pop (h : Inv N s chunk) (hN : 0 < N)
    (hok : s.popper = .idle → s.pops + 1 ≤ s.pushes - 1)
    (hs : s.pop N = some s') : Inv N s' chunk := by
  have hat := h.popper
  obtain ⟨⟨q, pc⟩, hq, rfl⟩ := Option.map_eq_some_iff.mp hs
  cases hpc : s.popper with
  | idle =>
      have hbusy : s.pops + 2 ≤ s.pushes := by
        have hroom := hok hpc
        omega
      rw [hpc] at hq hat
      obtain ⟨hbegin, hpos⟩ := hat
      cases hq
      by_cases hlast : s.queue.beginPos + 1 = N
      · rw [if_pos hlast, if_neg (by simp)]
        rw [hpos] at hlast
        exact h.popStay rfl rfl rfl rfl rfl ⟨hbegin, hlast⟩ hbusy
      · rw [if_neg hlast, if_pos rfl]
        rw [hpos] at hlast
        obtain ⟨hdiv, hmod⟩ := succ_div_mod_of_inner hN hlast
        refine h.popDone rfl rfl rfl rfl ?_ ⟨?_, ?_⟩ hbusy fun _ _ _ => rfl
        · rw [hdiv]
          exact h.spine
        · rw [hdiv]
          exact hbegin
        · rw [hmod, ← hpos]
  | save =>
      have hbusy := h.busy (by simp [hpc])
      rw [hpc] at hq hat
      obtain ⟨hbegin, hlast⟩ := hat
      obtain ⟨o, ho, hq⟩ := Option.map_eq_some_iff.mp hq
      cases hq
      rw [hbegin] at ho
      exact h.popStay rfl rfl rfl rfl rfl
        ⟨hbegin, hlast, (Option.some.inj ho).symm⟩ hbusy
  | follow o =>
      have hne : s.popper ≠ .idle := by simp [hpc]
      have hnext := h.next_le hN hne
      rw [hpc] at hq hat
      obtain ⟨hbegin, hlast, ho⟩ := hat
      obtain ⟨a, ha, hq⟩ := Option.bind_eq_some_iff.mp hq
      obtain ⟨ch, hch, hq⟩ := Option.map_eq_some_iff.mp hq
      cases hq
      rw [hbegin] at ha
      cases ha
      have hlink := h.spine.link (s.pops / N) (Nat.le_refl _) (by omega)
      rw [hch, Option.bind_some] at hlink
      exact h.popStay rfl rfl rfl rfl rfl ⟨hlink, hlast, ho⟩ (h.busy hne)
  | rewind o =>
      have hbusy := h.busy (by simp [hpc])
      rw [hpc] at hq hat
      obtain ⟨hbegin, hlast, ho⟩ := hat
      cases hq
      exact h.popStay rfl rfl rfl rfl rfl ⟨hbegin, hlast, ho, rfl⟩ hbusy
  | delete o =>
      have hne : s.popper ≠ .idle := by simp [hpc]
      rw [hpc] at hq hat
      obtain ⟨hbegin, hlast, rfl, hpos⟩ := hat
      obtain ⟨_, hq⟩ := Option.ite_none_right_eq_some.mp hq
      cases hq
      obtain ⟨hdiv, hmod⟩ := succ_div_mod_of_last hN hlast
      refine h.popDone rfl rfl rfl rfl ?_ ⟨?_, ?_⟩ (h.busy hne) fun i hi hlt => ?_
      · rw [hdiv]
        exact h.spine.delete
      · rw [hdiv]
        exact hbegin
      · rw [hmod]
        exact hpos
      · have hlo : s.pops / N + 1 ≤ i / N := by
          rw [← hdiv]
          exact Nat.div_le_div_right hi
        have htop : i / N ≤ s.pushes / N := Nat.div_le_div_right (Nat.le_of_lt hlt)
        have hother := h.spine.ne (Nat.le_refl _) hlo (by omega)
        simp only [load, slot, Option.bind_some, setHeap_of_ne hother.symm]

/-! ### All statements -/

theorem store (h : Inv N s chunk) (v : T) (hpc : s.pusher = .idle)
    (hpos : 0 < s.pushes) : Inv N (s.store v) chunk := by
  have hat := h.pusher
  rw [hpc] at hat
  have hback := hat.2.2 hpos
  have hlt : s.pops ≤ s.pushes - 1 := by
    have hahead := h.ahead
    omega
  -- an assignment to a slot does not change the members
  have hmembers : ∀ p : SlotPtr, ∃ heap, s.queue.store p v =
      { s.queue with heap := heap } := by
    intro p
    match p with
    | none => exact ⟨_, rfl⟩
    | some (a, i) => exact ⟨_, rfl⟩
  obtain ⟨heap, hheap⟩ := hmembers s.queue.back
  exact
    { h with
      spine := h.spine.store _ v
      pusher := by
        rw [show (s.store v).queue = _ from hheap]
        exact h.pusher.congr rfl rfl rfl rfl
      popper := by
        rw [show (s.store v).queue = _ from hheap]
        exact h.popper.congr rfl rfl rfl fun _ => rfl
      kept := fun i w hi hie hw => by
        show (s.queue.store s.queue.back v).load _ = _
        rw [hback]
        by_cases heq : i = s.pushes - 1
        · subst heq
          obtain ⟨ch, hch⟩ := h.spine.heap_some (Nat.div_le_div_right hlt)
            (div_le_top (Nat.sub_le _ 1))
          have hw' : some v = some w := (if_pos rfl).symm.trans hw
          rw [← hw']
          exact load_store_self hch v
        · have hw' : s.content i = some w := (if_neg heq).symm.trans hw
          rw [load_store_of_ne]
          · exact h.kept i w hi hie hw'
          · intro hslot
            exact heq (h.spine.slot_inj (Nat.div_le_div_right hi)
              (div_le_top (Nat.le_of_lt hie)) (Nat.div_le_div_right hlt)
              (div_le_top (Nat.sub_le _ 1)) hslot)
      unset := fun i hi => by
        have hne : i ≠ s.pushes - 1 := by
          have hle : s.pushes ≤ i := hi
          omega
        exact (if_neg hne).trans (h.unset i hi) }

theorem step {act : YqueueAct T} (h : Inv N s chunk) (hN : 0 < N)
    (hok : s.Allowed act) (hs : YqueueSys.step N s act = some s') :
    ∃ chunk', Inv N s' chunk' := by
  cases act with
  | push fresh => exact h.push hN hs
  | pop => exact ⟨chunk, h.pop hN hok hs⟩
  | store v =>
      obtain ⟨⟨hpc, hpos⟩, hs⟩ := Option.ite_none_right_eq_some.mp hs
      cases hs
      exact ⟨chunk, h.store v hpc hpos⟩

/-- When both threads are idle, the queue is that of the two functions. -/
theorem rep (h : Inv N s chunk) (hpush : s.pusher = .idle)
    (hpop : s.popper = .idle) : Rep N s.queue s.pops s.pushes chunk := by
  obtain ⟨hspine, hpusher, hpopper, -, -, -, -, -⟩ := id h
  rw [hpush] at hspine hpusher
  rw [hpop] at hpopper
  exact
    { le := h.pops_le
      inj := hspine.inj
      live := hspine.live
      link := hspine.link
      beginChunk := hpopper.1
      beginPos := hpopper.2
      endChunk := hpusher.1
      endPos := hpusher.2.1
      backChunk := fun hpos => (back_eq_some (hpusher.2.2 hpos)).1
      backPos := fun hpos => (back_eq_some (hpusher.2.2 hpos)).2 }

theorem slots_getElem? (h : Inv N s chunk) (hi : i < s.pushes) :
    s.slots[i]? = some (slot N chunk i) := by
  rw [h.slots, List.getElem?_map, List.getElem?_range hi]
  rfl

theorem slot_inj (h : Inv N s chunk) {j : Nat} (hi : s.pops ≤ i)
    (hi' : i < s.pushes) (hj : s.pops ≤ j) (hj' : j < s.pushes)
    (heq : s.slots[i]? = s.slots[j]?) : i = j := by
  rw [h.slots_getElem? hi', h.slots_getElem? hj'] at heq
  exact h.spine.slot_inj (Nat.div_le_div_right hi)
    (div_le_top (Nat.le_of_lt hi')) (Nat.div_le_div_right hj)
    (div_le_top (Nat.le_of_lt hj')) (Option.some.inj heq)

/-! ### Cells in common -/

/-- `pop` touches its members and the first chunk, the latter when it is about
to free it. -/
theorem popTouches (h : Inv N s chunk) {c : Cell}
    (hc : PopTouches s.popper s.queue c) :
    (c = .beginChunk ∨ c = .beginPos) ∨
      s.popper ≠ .idle ∧ c.InChunk (chunk (s.pops / N)) := by
  have hat := h.popper
  cases hpc : s.popper with
  | idle | rewind o =>
      rw [hpc] at hc
      exact .inl (.inr hc)
  | save =>
      rw [hpc] at hc
      exact .inl (.inl hc)
  | follow o =>
      rw [hpc] at hc hat
      rcases hc with rfl | ⟨a, ha, rfl⟩
      · exact .inl (.inl rfl)
      · rw [hat.1] at ha
        cases ha
        exact .inr ⟨by simp, .inl rfl⟩
  | delete o =>
      rw [hpc] at hc hat
      rw [← hat.2.2.1]
      exact .inr ⟨by simp, hc⟩

/-- `push` touches its members, the last chunk and the memory it gets. -/
theorem pushTouches (h : Inv N s chunk) {c : Cell}
    (hc : PushTouches fresh s.pusher s.queue c) :
    (c ≠ .beginChunk ∧ c ≠ .beginPos) ∧
      ∀ a, c.InChunk a → a = fresh ∨ a = chunk (s.pushes / N) := by
  have hmember : ∀ {c : Cell}, c = .endChunk ∨ c = .endPos ∨ c = .backChunk ∨
      c = .backPos → (c ≠ .beginChunk ∧ c ≠ .beginPos) ∧
        ∀ a, c.InChunk a → a = fresh ∨ a = chunk (s.pushes / N) := by
    rintro c (rfl | rfl | rfl | rfl) <;> exact ⟨by simp, by simp [Cell.InChunk]⟩
  have hnext : s.queue.endChunk = some (chunk (s.pushes / N)) →
      (c = .endChunk ∨ ∃ a, s.queue.endChunk = some a ∧ c = .next a) →
      (c ≠ .beginChunk ∧ c ≠ .beginPos) ∧
        ∀ a, c.InChunk a → a = fresh ∨ a = chunk (s.pushes / N) := by
    rintro hend (rfl | ⟨a, ha, rfl⟩)
    · exact hmember (.inl rfl)
    · rw [hend] at ha
      cases ha
      refine ⟨by simp, fun a ha => .inr ?_⟩
      rcases ha with heq | ⟨i, heq⟩
      · cases heq
        rfl
      · cases heq
  have hat := h.pusher
  cases hpc : s.pusher with
  | idle =>
      rw [hpc] at hc
      rcases hc with rfl | rfl
      · exact hmember (.inl rfl)
      · exact hmember (.inr (.inr (.inl rfl)))
  | backPos =>
      rw [hpc] at hc
      rcases hc with rfl | rfl
      · exact hmember (.inr (.inl rfl))
      · exact hmember (.inr (.inr (.inr rfl)))
  | count | rewind =>
      rw [hpc] at hc
      exact hmember (.inr (.inl hc))
  | alloc =>
      rw [hpc] at hc
      rcases hc with rfl | ⟨i, rfl⟩
      · exact ⟨by simp, by simp [Cell.InChunk, eq_comm]⟩
      · exact ⟨by simp, by simp [Cell.InChunk, eq_comm]⟩
  | link new | follow =>
      rw [hpc] at hc hat
      exact hnext hat.1 hc

/-- The next statements of the two threads have no cell in common. -/
theorem disjoint (h : Inv N s chunk) (hN : 0 < N)
    (hfresh : s.queue.heap fresh = none) {c : Cell}
    (hc : PushTouches fresh s.pusher s.queue c) :
    ¬ PopTouches s.popper s.queue c := by
  intro hc'
  obtain ⟨hmember, hchunk⟩ := h.pushTouches hc
  rcases h.popTouches hc' with hbegin | ⟨hbusy, hin⟩
  · rcases hbegin with rfl | rfl
    · exact hmember.1 rfl
    · exact hmember.2 rfl
  · have hnext := h.next_le hN hbusy
    rcases hchunk _ hin with heq | heq
    · exact h.spine.ne_fresh hfresh (Nat.le_refl _) (by omega) heq
    · exact h.spine.ne (Nat.le_refl _) hnext (by omega) heq

end Inv

/-! ### The list of chunks -/

/-- The elements that are gone: those that have been popped, and one whose
`pop` has left the chunk. -/
def gone (s : YqueueSys T) : Nat :=
  match s.popper with
  | .rewind _ | .delete _ => s.pops + 1
  | _ => s.pops

/-- The chunk at `a` holds an element that is not gone, one that is being
pushed, or the next free slot. -/
def Holds (s : YqueueSys T) (a : Addr) : Prop :=
  (∃ i k, s.gone ≤ i ∧ i < s.pushes ∧ s.slots[i]? = some (some (a, k))) ∨
    s.pusher ≠ .idle ∧ s.queue.backChunk = some a ∨ s.queue.endChunk = some a

/-- A chunk before that of the slot `e` has a slot from `f` on. -/
theorem exists_div_eq (hN : 0 < N) {f e k : Nat} (hk : f / N ≤ k)
    (hlt : k < e / N) : ∃ i, f ≤ i ∧ i < e ∧ i / N = k := by
  have hend : (k + 1) * N ≤ e := (Nat.le_div_iff_mul_le hN).mp hlt
  rw [Nat.add_mul, Nat.one_mul] at hend
  rcases Nat.le_total f (k * N) with hle | hle
  · exact ⟨k * N, hle, by omega, Nat.mul_div_cancel k hN⟩
  · have hdiv : f / N = k :=
      Nat.le_antisymm hk ((Nat.le_div_iff_mul_le hN).mpr hle)
    have hmod := Nat.div_add_mod f N
    have hrest := Nat.mod_lt f hN
    rw [hdiv, Nat.mul_comm] at hmod
    exact ⟨f, Nat.le_refl _, by omega, hdiv⟩

/-- `push` has gone on to the new chunk. -/
def moved : PushPc → Nat
  | .rewind => 1
  | _ => 0

namespace Inv

theorem gone_le (h : Inv N s chunk) : s.pops ≤ s.gone ∧ s.gone ≤ s.pushes := by
  have hle := h.pops_le
  have hbusy := h.busy
  unfold gone
  split
  · next hpc =>
      rw [hpc] at hbusy
      have hroom := hbusy (by simp)
      omega
  · next hpc =>
      rw [hpc] at hbusy
      have hroom := hbusy (by simp)
      omega
  · omega

theorem beginChunk (h : Inv N s chunk) (hN : 0 < N) :
    s.queue.beginChunk = some (chunk (s.gone / N)) := by
  have hat := h.popper
  cases hpc : s.popper with
  | idle | save | follow o =>
      rw [hpc] at hat
      rw [gone, hpc]
      exact hat.1
  | rewind o | delete o =>
      rw [hpc] at hat
      rw [gone, hpc]
      dsimp only
      rw [(succ_div_mod_of_last hN hat.2.1).1]
      exact hat.1

theorem endChunk (h : Inv N s chunk) :
    s.queue.endChunk = some (chunk (s.pushes / N + moved s.pusher)) := by
  have hat := h.pusher
  cases hpc : s.pusher with
  | _ =>
      rw [hpc] at hat
      exact hat.1

theorem backChunk (h : Inv N s chunk) (hbusy : s.pusher ≠ .idle) :
    s.queue.backChunk = some (chunk (s.pushes / N)) := by
  have hat := h.pusher
  cases hpc : s.pusher with
  | idle => exact (hbusy hpc).elim
  | backPos =>
      rw [hpc] at hat
      exact hat.2.2
  | count | alloc | follow | rewind =>
      rw [hpc] at hat
      exact (back_eq_some hat.2.2).1
  | link new =>
      rw [hpc] at hat
      exact (back_eq_some hat.2.2.1).1

theorem mem_chunks (h : Inv N s chunk) (hN : 0 < N) {a : Addr} :
    a ∈ addrs chunk (s.gone / N) (s.pushes / N + moved s.pusher) ↔ s.Holds a := by
  obtain ⟨_, hgone⟩ := h.gone_le
  have hle : s.gone / N ≤ s.pushes / N := Nat.div_le_div_right hgone
  rw [mem_addrs]
  constructor
  · rintro ⟨k, hk1, hk2, rfl⟩
    rcases Nat.lt_or_ge k (s.pushes / N) with hlt | hge
    · obtain ⟨i, hi, hie, rfl⟩ := exists_div_eq hN hk1 hlt
      exact .inl ⟨i, i % N, hi, hie, h.slots_getElem? hie⟩
    · rcases Nat.lt_or_eq_of_le hk2 with hlt | rfl
      · -- the chunk that `push` has just left
        have hbusy : s.pusher ≠ .idle := by
          intro hidle
          rw [hidle] at hlt
          exact Nat.not_lt.mpr hge hlt
        have hone : moved s.pusher ≤ 1 := by
          unfold moved
          split <;> omega
        have hk : k = s.pushes / N := by omega
        rw [hk]
        exact .inr (.inl ⟨hbusy, h.backChunk hbusy⟩)
      · exact .inr (.inr h.endChunk)
  · rintro (⟨i, k, hi, hie, hslot⟩ | ⟨hbusy, hback⟩ | hend)
    · rw [h.slots_getElem? hie] at hslot
      cases hslot
      exact ⟨i / N, Nat.div_le_div_right hi, Nat.le_trans
        (Nat.div_le_div_right (Nat.le_of_lt hie)) (Nat.le_add_right _ _), rfl⟩
    · rw [h.backChunk hbusy] at hback
      exact ⟨s.pushes / N, hle, Nat.le_add_right _ _, Option.some.inj hback⟩
    · rw [h.endChunk] at hend
      exact ⟨_, Nat.le_trans hle (Nat.le_add_right _ _), Nat.le_refl _,
        Option.some.inj hend⟩

theorem chain (h : Inv N s chunk) :
    Chain s.queue.heap (chunk (s.pushes / N + moved s.pusher))
      (chunk (s.gone / N))
      (addrs chunk (s.gone / N) (s.pushes / N + moved s.pusher)) ∧
    (addrs chunk (s.gone / N) (s.pushes / N + moved s.pusher)).Nodup := by
  obtain ⟨hpops, hgone⟩ := h.gone_le
  have hlo : s.pops / N ≤ s.gone / N := Nat.div_le_div_right hpops
  have hle : s.gone / N ≤ s.pushes / N := Nat.div_le_div_right hgone
  have hmoved : moved s.pusher ≤ linked s.pusher := by
    cases s.pusher <;> simp [moved, linked]
  have htop := h.spine.le
  exact ⟨h.spine.chain hlo (by omega) (by omega),
    h.spine.nodup_addrs hlo (by omega)⟩

/-! ### Every statement has an outcome -/

theorem push_isSome (h : Inv N s chunk) (hfresh : s.queue.heap fresh = none) :
    (s.push N fresh).isSome = true := by
  have hlo : s.pops / N ≤ s.pushes / N := Nat.div_le_div_right h.pops_le
  have hat := h.pusher
  rw [YqueueSys.push, Option.isSome_map]
  cases hpc : s.pusher with
  | idle | backPos | count | rewind => rfl
  | alloc =>
      rw [pushStep, hfresh]
      rfl
  | link new =>
      rw [hpc] at hat
      obtain ⟨ch, hch⟩ := h.spine.heap_some hlo (Nat.le_add_right _ _)
      simp only [pushStep, hat.1, hch, Option.bind_some]
      rfl
  | follow =>
      rw [hpc] at hat
      have hlink := h.spine.link _ hlo (by rw [hpc]; exact Nat.lt_succ_self _)
      obtain ⟨ch, hch, hnext⟩ := Option.bind_eq_some_iff.mp hlink
      simp only [pushStep, hat.1, hch, hnext, Option.bind_some]
      rfl

/-- The link that `pop` reads has been written. -/
theorem link_read (h : Inv N s chunk) (hN : 0 < N) {o : Addr}
    (hpc : s.popper = .follow o) : s.queue.beginChunk = some o ∧
      ∃ ch b, s.queue.heap o = some ch ∧ ch.next = some b := by
  have hnext := h.next_le hN (by simp [hpc])
  have hat := h.popper
  rw [hpc] at hat
  obtain ⟨hbegin, _, rfl⟩ := hat
  have hlink := h.spine.link _ (Nat.le_refl _) (by omega)
  obtain ⟨ch, hch, hb⟩ := Option.bind_eq_some_iff.mp hlink
  exact ⟨hbegin, ch, _, hch, hb⟩

theorem pop_isSome (h : Inv N s chunk) (hN : 0 < N) :
    (s.pop N).isSome = true := by
  have hat := h.popper
  rw [YqueueSys.pop, Option.isSome_map]
  cases hpc : s.popper with
  | idle | rewind o => rfl
  | save =>
      rw [hpc] at hat
      rw [popStep, hat.1]
      rfl
  | follow o =>
      obtain ⟨hbegin, ch, b, hch, _⟩ := h.link_read hN hpc
      simp only [popStep, hbegin, hch, Option.bind_some]
      rfl
  | delete o =>
      have hnext := h.next_le hN (by simp [hpc])
      rw [hpc] at hat
      obtain ⟨ch, hch⟩ := h.spine.heap_some (Nat.le_refl _) (by omega)
      rw [popStep, hat.2.2.1, hch]
      rfl

/-! ### Without interruption -/

theorem run_push (h : Inv N s chunk) (hpc : s.pusher = .idle)
    (hq : s.queue.push N fresh = some q) :
    ∃ n, Run (YqueueSys.step N) Allowed s (List.replicate n (.push fresh))
      { s with
        queue := q, pushes := s.pushes + 1, slots := s.slots ++ [q.back] } := by
  have hspine := h.spine
  have hlo : s.pops / N ≤ s.pushes / N := Nat.div_le_div_right h.pops_le
  have hat := h.pusher
  rw [hpc] at hat hspine
  obtain ⟨queue, pusher, popper, pushes, pops, slots, content⟩ := s
  cases hpc
  have hend : queue.endChunk = some (chunk (pushes / N)) := hat.1
  by_cases hlast : queue.endPos + 1 = N
  · cases hheap : queue.heap fresh with
    | some ch => simp [Yqueue.push, hlast, hheap] at hq
    | none =>
        obtain ⟨ch, hch⟩ := hspine.heap_some hlo (Nat.le_refl _)
        have hne := hspine.ne_fresh hheap hlo (Nat.le_refl _)
        dsimp only at hch hne
        simp only [Yqueue.push, hlast, ne_eq, not_true_eq_false, if_false,
          hheap, Option.isSome_none, Bool.false_eq_true, hend, hch,
          Option.map_some, setHeap_comm hne, Option.some.injEq] at hq
        subst hq
        refine ⟨7, Run.of_exec ?_⟩
        simp [exec, List.replicate, Allowed, YqueueSys.step, YqueueSys.push,
          pushStep, hlast, hheap, hend, hch, setHeap_of_ne hne, setHeap_self]
  · simp only [Yqueue.push, hlast, ne_eq, not_false_eq_true, if_true,
      Option.some.injEq] at hq
    subst hq
    refine ⟨3, Run.of_exec ?_⟩
    simp [exec, List.replicate, Allowed, YqueueSys.step, YqueueSys.push,
      pushStep, hlast]

theorem run_pop (h : Inv N s chunk) (hpc : s.popper = .idle)
    (hok : s.pops + 1 ≤ s.pushes - 1) :
    ∃ n, Run (YqueueSys.step N) Allowed s (List.replicate n .pop)
      { s with queue := s.queue.pop N, pops := s.pops + 1 } := by
  have hspine := h.spine
  have hat := h.popper
  rw [hpc] at hat
  have hlo : s.pops / N ≤ s.pushes / N + allocated s.pusher :=
    div_le_top h.pops_le
  obtain ⟨queue, pusher, popper, pushes, pops, slots, content⟩ := s
  cases hpc
  have hbegin : queue.beginChunk = some (chunk (pops / N)) := hat.1
  by_cases hlast : queue.beginPos + 1 = N
  · obtain ⟨ch, hch⟩ := hspine.heap_some (Nat.le_refl _) hlo
    dsimp only at hch hok
    refine ⟨5, Run.of_exec ?_⟩
    simp [exec, List.replicate, Allowed, YqueueSys.step, YqueueSys.pop,
      popStep, Yqueue.pop, hok, hlast, hbegin, hch]
  · dsimp only at hok
    refine ⟨1, Run.of_exec ?_⟩
    simp [exec, List.replicate, Allowed, YqueueSys.step, YqueueSys.pop,
      popStep, Yqueue.pop, hok, hlast]

end Inv

/-! ### What the queue is for -/

theorem slots_step {act : YqueueAct T} (hs : YqueueSys.step N s act = some s') :
    s.slots <+: s'.slots := by
  cases act with
  | push fresh =>
      obtain ⟨r, _, rfl⟩ := Option.map_eq_some_iff.mp hs
      split
      · exact List.prefix_append _ _
      · exact List.prefix_refl _
  | pop =>
      obtain ⟨r, _, rfl⟩ := Option.map_eq_some_iff.mp hs
      split
      · exact List.prefix_refl _
      · exact List.prefix_refl _
  | store v =>
      obtain ⟨_, hs⟩ := Option.ite_none_right_eq_some.mp hs
      cases hs
      exact List.prefix_refl _

/-- The queue is a FIFO with stable, distinct slots, and its threads stay
apart. -/
structure Sound (N : Nat) (s : YqueueSys T) : Prop where
  /-- `front ()` is the oldest element, in the slot it was pushed to. -/
  front : s.popper = .idle → s.pops < s.pushes →
    s.slots[s.pops]? = some s.queue.front
  /-- `back ()` is the newest element. -/
  back : s.pusher = .idle → 0 < s.pushes →
    s.slots[s.pushes - 1]? = some s.queue.back
  /-- An element stays in its slot, with the value assigned to it. -/
  stays : ∀ i, s.pops ≤ i → i < s.pushes → ∃ a k ch,
    s.slots[i]? = some (some (a, k)) ∧ k < N ∧ s.queue.heap a = some ch ∧
      ∀ v, s.content i = some v → ch.values k = some v
  distinct : ∀ i j, s.pops ≤ i → i < s.pushes → s.pops ≤ j → j < s.pushes →
    s.slots[i]? = s.slots[j]? → i = j
  /-- The next statement of `push` touches these cells only, and so does that of
  `pop`. -/
  pushLocal : ∀ fresh, Local (pushStep (T := T) N fresh s.pusher)
    (PushTouches fresh s.pusher)
  popLocal : Local (popStep (T := T) N s.popper) (PopTouches s.popper)
  /-- They have none in common. -/
  disjoint : ∀ fresh c, s.queue.heap fresh = none →
    PushTouches fresh s.pusher s.queue c → ¬ PopTouches s.popper s.queue c
  /-- At any two times, they are links, or memory that has been freed and
  allocated. -/
  common : ∀ fresh pc pc' (q q' : Yqueue T) c, PushTouches fresh pc q c →
    PopTouches pc' q' c →
      (∃ a, c = .next a) ∨ pc = .alloc ∧ ∃ o, pc' = .delete o
  /-- `pop` reads the link of a chunk after `push` has written it. -/
  linked : ∀ o, s.popper = .follow o → s.queue.beginChunk = some o ∧
    ∃ ch b, s.queue.heap o = some ch ∧ ch.next = some b
  /-- No statement follows a pointer to a chunk that is not there. -/
  pushes : ∀ fresh, s.queue.heap fresh = none →
    (YqueueSys.step N s (.push fresh)).isSome = true
  pops : (YqueueSys.step N s .pop).isSome = true
  /-- The list of the chunks. -/
  chunks : ∃ first last as, s.queue.beginChunk = some first ∧
    s.queue.endChunk = some last ∧ Chain s.queue.heap last first as ∧
    as.Nodup ∧ ∀ a, a ∈ as ↔ s.Holds a
  /-- The destructor goes through it once, stops, and leaves no chunk. -/
  destroyed : s.pusher = .idle → s.popper = .idle → ∃ least as, as.Nodup ∧
    (∀ a, a ∈ as ↔ s.Holds a) ∧ ∀ n, least ≤ n →
      ∃ q, s.queue.destroy n = some (q, as) ∧ ∀ a, q.heap a = none

theorem Inv.sound (h : Inv N s chunk) (hN : 0 < N) : s.Sound N where
  front hpc hlt := by
    have hat := h.popper
    rw [hpc] at hat
    rw [h.slots_getElem? hlt, Yqueue.front, hat.1, hat.2]
    rfl
  back hpc hpos := by
    have hat := h.pusher
    rw [hpc] at hat
    rw [h.slots_getElem? (by omega), hat.2.2 hpos]
  stays i hi hlt := by
    obtain ⟨ch, hch⟩ := h.spine.heap_some (Nat.div_le_div_right hi)
      (div_le_top (Nat.le_of_lt hlt))
    refine ⟨chunk (i / N), i % N, ch, h.slots_getElem? hlt, Nat.mod_lt i hN, hch,
      fun v hv => ?_⟩
    have hload := h.kept i v hi hlt hv
    simpa only [load, slot, Option.bind_some, hch] using hload
  distinct i j := h.slot_inj
  pushLocal fresh := pushStep_local N fresh s.pusher
  popLocal := popStep_local N s.popper
  disjoint fresh c hfresh := h.disjoint hN hfresh
  common fresh pc pc' q q' c := common_cell
  linked o := h.link_read hN
  pushes fresh := h.push_isSome
  pops := h.pop_isSome hN
  chunks := ⟨_, _, _, h.beginChunk hN, h.endChunk, h.chain.1, h.chain.2,
    fun a => h.mem_chunks hN⟩
  destroyed hpush hpop := by
    have hmem := fun a => h.mem_chunks (a := a) hN
    have hnodup := h.chain.2
    rw [gone, hpop, hpush] at hmem hnodup
    exact ⟨_, _, hnodup, hmem, fun n hn => (h.rep hpush hpop).destroy hn⟩

end YqueueSys

/-- Whatever `N`, whatever addresses `new` returns and however the two threads
are interleaved, as long as one element stays in the queue.  The slot of an
element is the same ever after. -/
theorem yqueue_sound {T : Type} {N : Nat} (hN : 0 < N) (fresh : Addr)
    {acts : List (YqueueAct T)} {s : YqueueSys T}
    (h : Run (YqueueSys.step N) YqueueSys.Allowed (YqueueSys.start fresh) acts s) :
    s.Sound N ∧ ∀ more t, Run (YqueueSys.step N) YqueueSys.Allowed s more t →
      s.slots <+: t.slots := by
  have hinv : ∃ chunk, YqueueSys.Inv N s chunk := by
    refine h.invariant (I := fun s => ∃ chunk, YqueueSys.Inv N s chunk) ?_
      ⟨_, .start fresh⟩
    rintro s act s' ⟨chunk, hinv⟩ hok hs
    exact hinv.step hN hok hs
  obtain ⟨chunk, hinv⟩ := hinv
  refine ⟨hinv.sound hN, fun more t hrun => ?_⟩
  exact hrun.invariant (I := fun t => s.slots <+: t.slots)
    (fun _ _ _ hpre _ hs => hpre.trans (YqueueSys.slots_step hs))
    (List.prefix_refl _)

/-- Chunks of one element.  While the first one is popped a third one is pushed,
which gets the memory of the first for the chunk of the fourth. -/
def reusedChunk : List (YqueueAct Nat) :=
  List.replicate 7 (.push 1) ++ [.store 10] ++ List.replicate 7 (.push 2) ++
  [.store 11, .pop, .pop, .push 0, .pop, .push 0, .pop, .push 0, .pop] ++
  List.replicate 4 (.push 0) ++ [.store 12] ++ List.replicate 7 (.push 5)

theorem yqueue_sound_reused :
    ∃ s, Run (YqueueSys.step 1) YqueueSys.Allowed (YqueueSys.start 0)
        reusedChunk s ∧
      s.pops = 1 ∧
      s.slots = [some (0, 0), some (1, 0), some (2, 0), some (0, 0)] ∧
      s.queue.load s.queue.front = some 11 ∧ s.Sound 1 :=
  Run.exists_of_exec (by decide +kernel) fun _ hrun hs =>
    ⟨And.left hs, And.left (And.right hs), And.right (And.right hs),
      (yqueue_sound (by decide) 0 hrun).1⟩

end ZeroMQ
