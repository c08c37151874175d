import ZeroMQ.Lib.Refcount
import ZeroMQ.Pipe.Basic

/-!
# `raw_message_t`

The message structure of `libzmq/zmq/raw_message.hpp`: very small messages are
held in the structure itself, larger ones in a `message_content_t` on the heap
that several structures may share.  The counter of a content is switched on
when it is first shared, and from then on every structure that refers to the
content has its `shared` flag set.

A content is named by the number of its allocation, so a name is never used
again; `Block` records how often the content was passed to `free` and its data
to its free function.  Following a pointer to a content that was freed, or
never allocated, sets `fault`.

## Main results

* `Sound` — the counters agree with a list of handles, every content is freed
  at most once, and no stale pointer was followed.
* `Sound.rawMessageInit`, `Sound.rawMessageInitData`, `Sound.rawMessageDestroy`,
  `Sound.rawMessageMove`, `Sound.rawMessageCopy`, `Sound.fanOut` — the
  operations on messages keep it.
-/

namespace ZeroMQ

open ZeroMQ.Lib

/-! ## The heap -/

/-- Where the data of a message are: behind the `message_content_t`, or in
memory the user supplied. -/
inductive Buffer where
  | inline
  | user (address : Nat)
  deriving DecidableEq, Repr

variable {data : Buffer} {size : Nat} {ffn : Option Nat}

/-- `message_content_t`.  `refcount` is an `atomic_counter_t`, of 32 bits. -/
structure MessageContent where
  data : Buffer
  size : Nat
  ffn : Option Nat
  refcount : Nat
  deriving DecidableEq, Repr

/-- `atomic_counter_t::add`. -/
def addCounter (value increment : Nat) : Nat := (value + increment) % 2 ^ 32

/-- `atomic_counter_t::sub`, without its result. -/
def subCounter (value decrement : Nat) : Nat :=
  (value + (2 ^ 32 - decrement)) % 2 ^ 32

/-- A content with its history. -/
structure Block where
  content : MessageContent
  /-- The calls of `free` on the content. -/
  frees : Nat
  /-- The calls of `ffn` on the data. -/
  ffnCalls : Nat
  deriving DecidableEq, Repr

/-- The contents allocated so far, by number. -/
structure Heap where
  blocks : List Block
  fault : Bool
  deriving DecidableEq, Repr

namespace Heap

/-- The content behind a valid pointer. -/
def block (h : Heap) (a : Nat) : Option Block :=
  h.blocks[a]?.filter fun b => b.frees = 0

/-- The counter behind a valid pointer. -/
def cell (h : Heap) (a : Nat) : Option Nat :=
  (h.block a).map fun b => b.content.refcount

/-- `malloc` and the initialisation of the content, whose counter starts at
zero. -/
def malloc (h : Heap) (data : Buffer) (size : Nat) (ffn : Option Nat) :
    Nat × Heap :=
  (h.blocks.length,
    { h with blocks := h.blocks ++ [⟨⟨data, size, ffn, 0⟩, 0, 0⟩] })

/-- A write through the pointer `a`. -/
def update (h : Heap) (a : Nat) (f : Block → Block) : Heap :=
  match h.block a with
  | some b => { h with blocks := h.blocks.set a (f b) }
  | none => { h with fault := true }

/-- `refcount.set (n)`. -/
def setRefcount (h : Heap) (a n : Nat) : Heap :=
  h.update a fun b => { b with content := { b.content with refcount := n } }

/-- `refcount.add (n)`. -/
def addRefcount (h : Heap) (a n : Nat) : Heap :=
  h.update a fun b =>
    { b with
      content :=
        { b.content with refcount := addCounter b.content.refcount n } }

/-- `refcount.sub (1)`; false when the counter drops to zero. -/
def subRefcount (h : Heap) (a : Nat) : Bool × Heap :=
  (h.cell a != some 1,
    h.update a fun b =>
      { b with
        content :=
          { b.content with refcount := subCounter b.content.refcount 1 } })

/-- `ffn (data)`, if there is one, and `free (content)`. -/
def release (h : Heap) (a : Nat) : Heap :=
  h.update a fun b =>
    { b with
      frees := b.frees + 1
      ffnCalls := if b.content.ffn.isSome then b.ffnCalls + 1 else b.ffnCalls }

variable {h : Heap} {a : Nat} {b : Block} {f : Block → Block}

theorem block_eq_some :
    h.block a = some b ↔ h.blocks[a]? = some b ∧ b.frees = 0 := by
  simp [block]

theorem exists_block_of_cell {c : Nat} (hc : h.cell a = some c) :
    ∃ b, h.block a = some b ∧ b.content.refcount = c := by
  simpa [cell] using hc

theorem cell_malloc_of_ne (ha : a ≠ h.blocks.length) :
    (h.malloc data size ffn).2.cell a = h.cell a := by
  simp only [cell, block, malloc]
  by_cases hlt : a < h.blocks.length
  · rw [List.getElem?_append_left hlt]
  · have hge : h.blocks.length < a := by omega
    rw [List.getElem?_eq_none (by simp; omega),
      List.getElem?_eq_none (by omega)]

theorem cell_malloc_self :
    (h.malloc data size ffn).2.cell h.blocks.length = some 0 := by
  simp [cell, block, malloc, Option.filter]

theorem cell_length : h.cell h.blocks.length = none := by
  simp [cell, block]

/-- A write through one pointer is not seen through another. -/
theorem cell_update_of_ne {a' : Nat} (ha : a' ≠ a) :
    (h.update a f).cell a' = h.cell a' := by
  unfold update
  cases hb : h.block a with
  | none => rfl
  | some b => simp [cell, block, List.getElem?_set_ne (Ne.symm ha)]

theorem update_eq (hb : h.block a = some b) :
    h.update a f = { h with blocks := h.blocks.set a (f b) } := by
  simp [update, hb]

theorem block_update (hb : h.block a = some b) :
    (h.update a f).block a =
      if (f b).frees = 0 then some (f b) else none := by
  have hlt : a < h.blocks.length := by
    rw [block_eq_some] at hb
    exact (List.getElem?_eq_some_iff.mp hb.1).1
  rw [update_eq hb]
  simp [block, List.getElem?_set_self hlt, Option.filter]

/-- Two writes through one pointer, the first of which leaves it valid. -/
theorem update_update {f g : Block → Block} (hb : h.block a = some b)
    (h0 : (f b).frees = 0) :
    (h.update a f).update a g = h.update a fun b => g (f b) := by
  have hb' : (h.update a f).block a = some (f b) := by
    rw [block_update hb, if_pos h0]
  rw [update_eq hb', update_eq hb, update_eq hb, List.set_set]

end Heap

/-! ## Messages -/

/-- `max_vsm_size`. -/
def maxVsmSize : Nat := 30

/-- The member `content` of a data message: `vsm_tag` or a pointer. -/
inductive ContentPtr where
  | vsm
  | ptr (a : Nat)
  deriving DecidableEq, Repr

/-- A data message.  `shared` is meaningless in a very small message. -/
structure Handle where
  content : ContentPtr
  shared : Bool
  vsmSize : Nat
  vsmData : List UInt8
  deriving DecidableEq, Repr

/-- `raw_message_t`: the tags `gap_tag` and `delimiter_tag` in `content` are
the other two constructors of `RawMsg`. -/
abbrev RawMessage := RawMsg Handle

namespace RawMsg

/-- The member `shared`; `raw_message_init_notification` clears it. -/
def shared : RawMessage → Bool
  | .data m => m.shared
  | _ => false

/-- The very small data in the structure, which nothing initialises. -/
def vsmData : RawMessage → List UInt8
  | .data m => m.vsmData
  | _ => []

def vsmSize : RawMessage → Nat
  | .data m => m.vsmSize
  | _ => 0

/-- The reference to a content that a message holds. -/
def refs : RawMessage → List (Ref Nat)
  | .data ⟨.ptr a, shared, _, _⟩ => [⟨a, shared⟩]
  | _ => []

end RawMsg

/-- `raw_message_type`: 0 for data, the tag for notifications. -/
def rawMessageType {M : Type} : RawMsg M → Nat
  | .data _ => 0
  | .gap => 1
  | .delimiter => 31

/-- `raw_message_init (msg_, size_)`.  A very small message keeps whatever was
in the other members. -/
def rawMessageInit (msg : RawMessage) (size : Nat) (h : Heap) :
    RawMessage × Heap :=
  if size ≤ maxVsmSize then
    (.data ⟨.vsm, msg.shared, size, msg.vsmData⟩, h)
  else
    let (a, h') := h.malloc .inline size none
    (.data ⟨.ptr a, false, msg.vsmSize, msg.vsmData⟩, h')

/-- `raw_message_init (msg_, data_, size_, ffn_)`. -/
def rawMessageInitData (msg : RawMessage) (data size : Nat) (ffn : Option Nat)
    (h : Heap) : RawMessage × Heap :=
  let (a, h') := h.malloc (.user data) size ffn
  (.data ⟨.ptr a, false, msg.vsmSize, msg.vsmData⟩, h')

/-- `raw_message_destroy`. -/
def rawMessageDestroy (msg : RawMessage) (h : Heap) : Heap :=
  match msg with
  | .data ⟨.ptr a, shared, _, _⟩ =>
      if !shared then h.release a
      else
        let (more, h') := h.subRefcount a
        if !more then h'.release a else h'
  | _ => h

/-- `raw_message_move`: the new source, the new destination and the heap. -/
def rawMessageMove (src dest : RawMessage) (h : Heap) :
    RawMessage × RawMessage × Heap :=
  let h := rawMessageDestroy dest h
  let dest := src
  let (src, h) := rawMessageInit src 0 h
  (src, dest, h)

/-- The counting in `raw_message_copy`: the new source and the heap. -/
def addReference (src : RawMessage) (h : Heap) : RawMessage × Heap :=
  match src with
  | .data ⟨.ptr a, shared, size, data⟩ =>
      if shared then (src, h.addRefcount a 1)
      else (.data ⟨.ptr a, true, size, data⟩, h.setRefcount a 2)
  | _ => (src, h)

/-- `raw_message_copy`: the new source, the new destination and the heap. -/
def rawMessageCopy (src dest : RawMessage) (h : Heap) :
    RawMessage × RawMessage × Heap :=
  let h := rawMessageDestroy dest h
  let (src, h) := addReference src h
  (src, src, h)

/-- What `publisher_t::write` does to a content that goes to `n` pipes.  It
takes `content` for a pointer. -/
def fanOut (n : Nat) (msg : RawMessage) (h : Heap) : RawMessage × Heap :=
  match msg with
  | .data ⟨.ptr a, shared, size, data⟩ =>
      if shared then (msg, h.addRefcount a (n - 1))
      else (.data ⟨.ptr a, true, size, data⟩, h.setRefcount a n)
  | _ => (msg, { h with fault := true })

/-! ## Handles and counters agree -/

/-- The heap fits the references to it. -/
structure Sound (h : Heap) (refs : List (Ref Nat)) : Prop where
  exact : Exact h.cell refs
  once : ∀ b ∈ h.blocks, (b.frees = 0 ∧ b.ffnCalls = 0) ∨
    (b.frees = 1 ∧ b.ffnCalls = if b.content.ffn.isSome then 1 else 0)
  noFault : h.fault = false
  few : refs.length < 2 ^ 32

theorem Sound.empty : Sound ⟨[], false⟩ [] where
  exact := fun a => .absent rfl rfl
  once := by simp
  noFault := rfl
  few := by decide

variable {h : Heap} {refs refs' : List (Ref Nat)} {msg : RawMessage} {a : Nat}
  {bl : Block} {n : Nat}

theorem Sound.perm (hs : Sound h refs) (hp : refs'.Perm refs) :
    Sound h refs' :=
  { hs with
    exact := hs.exact.perm hp
    few := by rw [hp.length_eq]; exact hs.few }

theorem Sound.block_of_mem {b : Bool} (hs : Sound h refs)
    (hm : ⟨a, b⟩ ∈ refs) : ∃ bl, h.block a = some bl := by
  obtain ⟨c, hc⟩ := hs.exact.cell_of_mem hm
  obtain ⟨bl, hbl, _⟩ := Heap.exists_block_of_cell hc
  exact ⟨bl, hbl⟩

/-- A write to a valid content that frees it at most once. -/
theorem Sound.update {f : Block → Block} (hs : Sound h refs)
    (hb : h.block a = some bl)
    (hf : (f bl).frees = 0 ∧ (f bl).ffnCalls = bl.ffnCalls ∨
      (f bl).frees = 1 ∧
        (f bl).ffnCalls = if (f bl).content.ffn.isSome then
          bl.ffnCalls + 1 else bl.ffnCalls)
    (hexact : Exact (h.update a f).cell refs') (hfew : refs'.length < 2 ^ 32) :
    Sound (h.update a f) refs' := by
  have hbl := hs.once bl (List.mem_of_getElem? (Heap.block_eq_some.mp hb).1)
  have h0 := (Heap.block_eq_some.mp hb).2
  have hcalls : bl.ffnCalls = 0 := by omega
  refine ⟨hexact, ?_, ?_, hfew⟩
  · rw [Heap.update_eq hb]
    exact forall_mem_set hs.once (by simpa [hcalls] using hf)
  · rw [Heap.update_eq hb]
    exact hs.noFault

theorem Sound.setRefcount (hs : Sound h (⟨a, false⟩ :: refs)) (hn : 0 < n)
    (hfew : n + refs.length < 2 ^ 32) :
    Sound (h.setRefcount a n) (List.replicate n ⟨a, true⟩ ++ refs) := by
  obtain ⟨bl, hbl⟩ := hs.block_of_mem (a := a) (b := false) (by simp)
  have h0 := (Heap.block_eq_some.mp hbl).2
  refine hs.update hbl (.inl ⟨h0, rfl⟩) ?_ (by simpa using hfew)
  refine hs.exact.splitSole hn (fun b hb => Heap.cell_update_of_ne hb) ?_
  simp [Heap.cell, Heap.block_update hbl, h0]

theorem Sound.addRefcount (hs : Sound h (⟨a, true⟩ :: refs))
    (hfew : n + 1 + refs.length < 2 ^ 32) :
    Sound (h.addRefcount a n)
      (List.replicate (n + 1) ⟨a, true⟩ ++ refs) := by
  obtain ⟨c, hc⟩ := hs.exact.cell_of_mem (a := a) (b := true) (by simp)
  obtain ⟨bl, hbl, rfl⟩ := Heap.exists_block_of_cell hc
  have h0 := (Heap.block_eq_some.mp hbl).2
  have hle : bl.content.refcount ≤ refs.length + 1 := by
    rw [← (hs.exact.counter_eq (by simp) hc).1]
    exact List.count_le_length
  refine hs.update hbl (.inl ⟨h0, rfl⟩) ?_ (by simpa using hfew)
  refine hs.exact.splitShared hc (fun b hb => Heap.cell_update_of_ne hb) ?_
  have hwrap : addCounter bl.content.refcount n = bl.content.refcount + n := by
    unfold addCounter
    exact Nat.mod_eq_of_lt (by omega)
  simp [Heap.cell, Heap.block_update hbl, h0, hwrap]

theorem Sound.releaseSole (hs : Sound h (⟨a, false⟩ :: refs)) :
    Sound (h.release a) refs := by
  obtain ⟨bl, hbl⟩ := hs.block_of_mem (a := a) (b := false) (by simp)
  have h0 := (Heap.block_eq_some.mp hbl).2
  have hfew := hs.few
  refine hs.update hbl (.inr ⟨by simp [h0], rfl⟩) ?_
    (by rw [List.length_cons] at hfew; omega)
  refine hs.exact.dropSole (fun b hb => Heap.cell_update_of_ne hb) ?_
  simp [Heap.cell, Heap.block_update hbl]

/-- The last of the shared handles frees the content. -/
theorem Sound.releaseLast (hs : Sound h (⟨a, true⟩ :: refs))
    (hbl : h.block a = some bl) (hlast : bl.content.refcount = 1) :
    Sound ((h.subRefcount a).2.release a) refs := by
  have h0 := (Heap.block_eq_some.mp hbl).2
  have hfew : refs.length + 1 < 2 ^ 32 := hs.few
  rw [Heap.subRefcount, Heap.release, Heap.update_update hbl h0]
  refine hs.update hbl (.inr ⟨by simp [h0], rfl⟩) ?_ (by omega)
  refine hs.exact.dropLast (by simp [Heap.cell, hbl, hlast])
    (fun b hb => Heap.cell_update_of_ne hb) ?_
  rw [Heap.cell, Heap.block_update hbl, if_neg (Nat.succ_ne_zero _)]
  rfl

theorem subCounter_one (hpos : 0 < n) (hlt : n < 2 ^ 32) :
    subCounter n 1 = n - 1 := by
  unfold subCounter
  omega

theorem Sound.subRefcount (hs : Sound h (⟨a, true⟩ :: refs))
    (hbl : h.block a = some bl) (hmore : bl.content.refcount ≠ 1) :
    Sound (h.subRefcount a).2 refs := by
  have h0 := (Heap.block_eq_some.mp hbl).2
  have hfew : refs.length + 1 < 2 ^ 32 := hs.few
  have hc : h.cell a = some bl.content.refcount := by
    rw [Heap.cell, hbl]
    rfl
  obtain ⟨hcount, -⟩ := hs.exact.counter_eq (by simp) hc
  have hpos : 0 < bl.content.refcount := by
    rw [← hcount]
    exact List.count_pos_iff.mpr (by simp)
  have hle : bl.content.refcount ≤ refs.length + 1 := by
    rw [← hcount]
    exact List.count_le_length
  refine hs.update hbl (.inl ⟨h0, rfl⟩) ?_ (by omega)
  refine hs.exact.dropShared (c := bl.content.refcount - 1) ?_ (by omega)
    (fun b hb => Heap.cell_update_of_ne hb) ?_
  · rw [hc, Nat.sub_add_cancel hpos]
  · rw [Heap.cell, Heap.block_update hbl, if_pos h0, Option.map_some,
      subCounter_one hpos (by omega)]

theorem Sound.releaseShared (hs : Sound h (⟨a, true⟩ :: refs)) :
    Sound (if !(h.subRefcount a).1 then (h.subRefcount a).2.release a
      else (h.subRefcount a).2) refs := by
  obtain ⟨bl, hbl⟩ := hs.block_of_mem (a := a) (b := true) (by simp)
  have hc : h.cell a = some bl.content.refcount := by
    rw [Heap.cell, hbl]
    rfl
  by_cases hlast : bl.content.refcount = 1
  · have hres : (h.subRefcount a).1 = false := by
      simp [Heap.subRefcount, hc, hlast]
    rw [hres, if_pos (by rfl)]
    exact hs.releaseLast hbl hlast
  · have hres : (h.subRefcount a).1 = true := by
      simp [Heap.subRefcount, hc, hlast]
    rw [hres, if_neg (by simp)]
    exact hs.subRefcount hbl hlast

/-! ## The operations -/

theorem Sound.malloc (hs : Sound h refs) (hfew : refs.length + 1 < 2 ^ 32) :
    Sound (h.malloc data size ffn).2 (⟨h.blocks.length, false⟩ :: refs) where
  exact := hs.exact.alloc Heap.cell_length
    (fun b hb => Heap.cell_malloc_of_ne hb) Heap.cell_malloc_self
  once := by
    intro b hb
    simp only [Heap.malloc, List.mem_append, List.mem_singleton] at hb
    rcases hb with hb | rfl
    · exact hs.once b hb
    · simp
  noFault := hs.noFault
  few := by simpa using hfew

theorem Sound.rawMessageDestroy (hs : Sound h (msg.refs ++ refs)) :
    Sound (rawMessageDestroy msg h) refs := by
  match msg, hs with
  | .gap, hs => exact hs
  | .delimiter, hs => exact hs
  | .data ⟨.vsm, _, _, _⟩, hs => exact hs
  | .data ⟨.ptr a, false, _, _⟩, hs => exact hs.releaseSole
  | .data ⟨.ptr a, true, _, _⟩, hs => exact hs.releaseShared

/-- A new message of any size, on top of the references there are. -/
theorem Sound.rawMessageInit (hs : Sound h refs) (msg : RawMessage)
    (size : Nat)
    (hfew : ((rawMessageInit msg size h).1.refs ++ refs).length < 2 ^ 32) :
    Sound (rawMessageInit msg size h).2
      ((rawMessageInit msg size h).1.refs ++ refs) := by
  unfold ZeroMQ.rawMessageInit at hfew ⊢
  by_cases hsize : size ≤ maxVsmSize
  · rw [if_pos hsize]
    exact hs
  · rw [if_neg hsize] at hfew ⊢
    exact hs.malloc (by simpa [RawMsg.refs, Nat.add_comm] using hfew)

theorem refs_rawMessageInit_zero (msg : RawMessage) (h : Heap) :
    (rawMessageInit msg 0 h).1.refs = [] := by
  simp [rawMessageInit, RawMsg.refs]

theorem rawMessageInit_zero_heap (msg : RawMessage) (h : Heap) :
    (rawMessageInit msg 0 h).2 = h := by
  simp [rawMessageInit]

theorem Sound.rawMessageInitData (hs : Sound h refs) (msg : RawMessage)
    (data size : Nat) (ffn : Option Nat) (hfew : refs.length + 1 < 2 ^ 32) :
    Sound (rawMessageInitData msg data size ffn h).2
      ((rawMessageInitData msg data size ffn h).1.refs ++ refs) :=
  hs.malloc hfew

/-- Moving a message takes the place of its destination. -/
theorem Sound.rawMessageMove {src dest : RawMessage}
    (hs : Sound h (dest.refs ++ (src.refs ++ refs))) :
    Sound (rawMessageMove src dest h).2.2
      ((rawMessageMove src dest h).1.refs ++
        ((rawMessageMove src dest h).2.1.refs ++ refs)) := by
  have hd := hs.rawMessageDestroy
  simpa [ZeroMQ.rawMessageMove, refs_rawMessageInit_zero,
    rawMessageInit_zero_heap] using hd

/-- A message that stands for `n` handles to its content. -/
theorem Sound.fanOut {shared : Bool} (hs : Sound h (⟨a, shared⟩ :: refs))
    (size : Nat) (data : List UInt8) (hn : 0 < n)
    (hfew : n + refs.length < 2 ^ 32) :
    (fanOut n (.data ⟨.ptr a, shared, size, data⟩) h).1 =
        .data ⟨.ptr a, true, size, data⟩ ∧
      Sound (fanOut n (.data ⟨.ptr a, shared, size, data⟩) h).2
        (List.replicate n ⟨a, true⟩ ++ refs) := by
  cases shared with
  | false => exact ⟨rfl, hs.setRefcount hn hfew⟩
  | true =>
      obtain ⟨k, rfl⟩ : ∃ k, n = k + 1 := ⟨n - 1, by omega⟩
      exact ⟨rfl, hs.addRefcount hfew⟩

/-- The counting in a copy is that of two destinations. -/
theorem Sound.addReference {src : RawMessage}
    (hs : Sound h (src.refs ++ refs))
    (hfew : ((addReference src h).1.refs ++
      ((addReference src h).1.refs ++ refs)).length < 2 ^ 32) :
    Sound (addReference src h).2
      ((addReference src h).1.refs ++
        ((addReference src h).1.refs ++ refs)) := by
  match src, hs with
  | .gap, hs => exact hs
  | .delimiter, hs => exact hs
  | .data ⟨.vsm, _, _, _⟩, hs => exact hs
  | .data ⟨.ptr a, shared, size, data⟩, hs =>
      have hfew' : 2 + refs.length < 2 ^ 32 := by
        have hlen : refs.length + 1 + 1 < 2 ^ 32 := by cases shared <;> exact hfew
        omega
      have hfan := (hs.fanOut (n := 2) size data (by omega) hfew').2
      cases shared <;> exact hfan

theorem Sound.rawMessageCopy {src dest : RawMessage}
    (hs : Sound h (dest.refs ++ (src.refs ++ refs)))
    (hfew : ((rawMessageCopy src dest h).1.refs ++
      ((rawMessageCopy src dest h).2.1.refs ++ refs)).length < 2 ^ 32) :
    Sound (rawMessageCopy src dest h).2.2
      ((rawMessageCopy src dest h).1.refs ++
        ((rawMessageCopy src dest h).2.1.refs ++ refs)) :=
  hs.rawMessageDestroy.addReference hfew

end ZeroMQ
