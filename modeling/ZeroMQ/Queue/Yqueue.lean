/-!
# `yqueue_t`: a queue in heap chunks of `N` elements

`yqueue_t` (`libzmq/zmq/yqueue.hpp`) keeps its elements in a linked list of
chunks.  `push` moves `back` to the next free slot and allocates a chunk when
it takes the last slot of one; `pop` frees a chunk with its last element.  The
address of a freed chunk may be given out again.

The model has the heap explicitly: `heap a` is the chunk at address `a`, and
`none` when no chunk of this queue is there.  `new` may return any address
that is not in use (the argument `fresh` of `push`), and fresh memory holds
neither a value nor a link.

`Rep` describes the queue between slot `f` (the front) and slot `e` (the next
free one): chunk number `k` holds the slots `k * N`, ..., `k * N + N - 1` and
stands at address `chunk k`.  Two live slots never share an address
(`Rep.slot_inj`), whatever addresses the allocator has reused.
-/

namespace ZeroMQ

/-- Heap address of a chunk. -/
abbrev Addr := Nat

/-- A pointer to a slot: the address of its chunk and its position in it.
`none` is `NULL`. -/
abbrev SlotPtr := Option (Addr × Nat)

/-- `yqueue_t::chunk_t`; a value or link not written yet is `none`. -/
structure Chunk (T : Type) where
  values : Nat → Option T
  next : Option Addr

/-- A chunk as `new chunk_t` returns it. -/
def Chunk.new {T : Type} : Chunk T := { values := fun _ => none, next := none }

/-- The members of `yqueue_t` and the heap its chunks live in. -/
structure Yqueue (T : Type) where
  heap : Addr → Option (Chunk T)
  beginChunk : Option Addr
  beginPos : Nat
  backChunk : Option Addr
  backPos : Nat
  endChunk : Option Addr
  endPos : Nat

namespace Yqueue

variable {T : Type} {fresh : Addr} {i : Nat}

/-- Heap update at one address. -/
def setHeap (heap : Addr → Option (Chunk T)) (a : Addr)
    (chunk : Option (Chunk T)) : Addr → Option (Chunk T) :=
  fun b => if b = a then chunk else heap b

/-- The constructor; `fresh` is the address of the first chunk. -/
def create (fresh : Addr) : Yqueue T :=
  { heap := setHeap (fun _ => none) fresh (some .new)
    beginChunk := some fresh, beginPos := 0
    backChunk := none, backPos := 0
    endChunk := some fresh, endPos := 0 }

/-- `&front ()`. -/
def front (q : Yqueue T) : SlotPtr :=
  q.beginChunk.map fun a => (a, q.beginPos)

/-- `&back ()`. -/
def back (q : Yqueue T) : SlotPtr :=
  q.backChunk.map fun a => (a, q.backPos)

/-- The value a slot pointer points to. -/
def load (q : Yqueue T) (p : SlotPtr) : Option T :=
  p.bind fun s => (q.heap s.1).bind fun ch => ch.values s.2

/-- Assignment through a slot pointer. -/
def store (q : Yqueue T) (p : SlotPtr) (v : T) : Yqueue T :=
  match p with
  | none => q
  | some (a, i) =>
      { q with heap := setHeap q.heap a ((q.heap a).map fun ch =>
          { ch with values := fun j => if j = i then some v else ch.values j }) }

/-- `push`.  The result is `none` only when `fresh` is in use, an address the
allocator does not return. -/
def push (N : Nat) (q : Yqueue T) (fresh : Addr) : Option (Yqueue T) :=
  let q1 := { q with
    backChunk := q.endChunk, backPos := q.endPos, endPos := q.endPos + 1 }
  if q.endPos + 1 ≠ N then some q1
  else if (q.heap fresh).isSome then none
  else
    -- end_chunk->next = new chunk_t; end_chunk = end_chunk->next; end_pos = 0
    let linked := match q.endChunk with
      | none => q.heap
      | some a => setHeap q.heap a ((q.heap a).map fun ch =>
          { ch with next := some fresh })
    some { q1 with
      heap := setHeap linked fresh (some .new)
      endChunk := some fresh, endPos := 0 }

/-- `pop`. -/
def pop (N : Nat) (q : Yqueue T) : Yqueue T :=
  if q.beginPos + 1 = N then
    match q.beginChunk with
    | none => { q with beginPos := 0 }
    | some o =>
        -- begin_chunk = begin_chunk->next; begin_pos = 0; delete o
        { q with
          heap := setHeap q.heap o none
          beginChunk := (q.heap o).bind Chunk.next
          beginPos := 0 }
  else { q with beginPos := q.beginPos + 1 }

/-! ## Slots and chunks -/

/-- The pointer to slot `i` when chunk `k` stands at address `chunk k`. -/
def slot (N : Nat) (chunk : Nat → Addr) (i : Nat) : SlotPtr :=
  some (chunk (i / N), i % N)

/-- The chunk addresses after chunk number `k` has been allocated. -/
def extend (chunk : Nat → Addr) (k : Nat) (fresh : Addr) : Nat → Addr :=
  fun l => if l = k then fresh else chunk l

theorem extend_self (chunk : Nat → Addr) (k : Nat) (fresh : Addr) :
    extend chunk k fresh k = fresh :=
  if_pos rfl

theorem extend_of_lt {chunk : Nat → Addr} {k l : Nat} (h : l < k) :
    extend chunk k fresh l = chunk l :=
  if_neg (Nat.ne_of_lt h)

theorem setHeap_self (heap : Addr → Option (Chunk T)) (a : Addr)
    (chunk : Option (Chunk T)) : setHeap heap a chunk a = chunk :=
  if_pos rfl

theorem setHeap_of_ne {heap : Addr → Option (Chunk T)} {a b : Addr}
    {chunk : Option (Chunk T)} (h : b ≠ a) : setHeap heap a chunk b = heap b :=
  if_neg h

theorem setHeap_comm {heap : Addr → Option (Chunk T)} {a b : Addr}
    {chunk chunk' : Option (Chunk T)} (h : a ≠ b) :
    setHeap (setHeap heap a chunk) b chunk' =
      setHeap (setHeap heap b chunk') a chunk := by
  funext c
  by_cases ha : c = a
  · rw [ha, setHeap_of_ne h, setHeap_self, setHeap_self]
  · by_cases hb : c = b
    · rw [hb, setHeap_self, setHeap_of_ne h.symm, setHeap_self]
    · rw [setHeap_of_ne hb, setHeap_of_ne ha, setHeap_of_ne ha, setHeap_of_ne hb]

/-- The chunks from `lo` to `top` stand at distinct addresses, no other is in
the heap, and those before `linked` have a link to the next one. -/
structure Spine (heap : Addr → Option (Chunk T)) (chunk : Nat → Addr)
    (lo linked top : Nat) : Prop where
  inj : ∀ k l, lo ≤ k → k ≤ top → lo ≤ l → l ≤ top → chunk k = chunk l → k = l
  live : ∀ a, (heap a).isSome = true ↔ ∃ k, lo ≤ k ∧ k ≤ top ∧ chunk k = a
  link : ∀ k, lo ≤ k → k < linked →
    (heap (chunk k)).bind Chunk.next = some (chunk (k + 1))
  le : linked ≤ top

namespace Spine

variable {heap : Addr → Option (Chunk T)} {chunk : Nat → Addr}
  {lo linked top k : Nat}

theorem heap_some (h : Spine heap chunk lo linked top) (hlo : lo ≤ k)
    (htop : k ≤ top) : ∃ ch, heap (chunk k) = some ch :=
  Option.isSome_iff_exists.mp ((h.live _).mpr ⟨k, hlo, htop, rfl⟩)

theorem ne_fresh (h : Spine heap chunk lo linked top) (hfresh : heap fresh = none)
    (hlo : lo ≤ k) (htop : k ≤ top) : chunk k ≠ fresh := by
  rintro rfl
  obtain ⟨ch, hch⟩ := h.heap_some hlo htop
  rw [hfresh] at hch
  cases hch

theorem ne (h : Spine heap chunk lo linked top) {l : Nat} (hk : lo ≤ k)
    (hkl : k < l) (hl : l ≤ top) : chunk k ≠ chunk l := by
  intro heq
  have hsame := h.inj k l hk (by omega) (by omega) hl heq
  omega

/-- Distinct slots in these chunks have distinct addresses. -/
theorem slot_inj (h : Spine heap chunk lo linked top) {N j : Nat}
    (hi : lo ≤ i / N) (hi' : i / N ≤ top) (hj : lo ≤ j / N) (hj' : j / N ≤ top)
    (heq : slot N chunk i = slot N chunk j) : i = j := by
  simp only [slot, Option.some.injEq, Prod.mk.injEq] at heq
  have hk := h.inj (i / N) (j / N) hi hi' hj hj' heq.1
  calc
    i = N * (i / N) + i % N := (Nat.div_add_mod i N).symm
    _ = N * (j / N) + j % N := by rw [hk, heq.2]
    _ = j := Nat.div_add_mod j N

/-- A new chunk at an address that is not in use. -/
theorem alloc (h : Spine heap chunk lo linked top) (hlo : lo ≤ top + 1)
    (hfresh : heap fresh = none) :
    Spine (setHeap heap fresh (some .new)) (extend chunk (top + 1) fresh) lo
      linked (top + 1) where
  inj k l hk1 hk2 hl1 hl2 heq := by
    rcases Nat.lt_or_eq_of_le hk2 with hk | rfl
    · rcases Nat.lt_or_eq_of_le hl2 with hl | rfl
      · rw [extend_of_lt hk, extend_of_lt hl] at heq
        exact h.inj k l hk1 (by omega) hl1 (by omega) heq
      · rw [extend_of_lt hk, extend_self] at heq
        exact (h.ne_fresh hfresh hk1 (by omega) heq).elim
    · rcases Nat.lt_or_eq_of_le hl2 with hl | rfl
      · rw [extend_of_lt hl, extend_self] at heq
        exact (h.ne_fresh hfresh hl1 (by omega) heq.symm).elim
      · rfl
  live a := by
    by_cases ha : a = fresh
    · subst ha
      rw [setHeap_self]
      exact ⟨fun _ => ⟨top + 1, hlo, Nat.le_refl _, extend_self ..⟩, fun _ => rfl⟩
    · rw [setHeap_of_ne ha, h.live]
      constructor
      · rintro ⟨k, hk1, hk2, rfl⟩
        exact ⟨k, hk1, by omega, extend_of_lt (by omega)⟩
      · rintro ⟨k, hk1, hk2, hka⟩
        rcases Nat.lt_or_eq_of_le hk2 with hk | rfl
        · rw [extend_of_lt hk] at hka
          exact ⟨k, hk1, by omega, hka⟩
        · rw [extend_self] at hka
          exact (ha hka.symm).elim
  link k hk1 hk2 := by
    have hle := h.le
    rw [extend_of_lt (by omega), extend_of_lt (by omega),
      setHeap_of_ne (h.ne_fresh hfresh hk1 (by omega))]
    exact h.link k hk1 hk2
  le := Nat.le_succ_of_le h.le

/-- The link of the last chunk that has none. -/
theorem setNext (h : Spine heap chunk lo linked (linked + 1))
    (hlo : lo ≤ linked) :
    Spine (setHeap heap (chunk linked) ((heap (chunk linked)).map fun ch =>
      { ch with next := some (chunk (linked + 1)) })) chunk lo (linked + 1)
      (linked + 1) where
  inj := h.inj
  live a := by
    rw [← h.live]
    by_cases ha : a = chunk linked
    · rw [ha, setHeap_self, Option.isSome_map]
    · rw [setHeap_of_ne ha]
  link k hk1 hk2 := by
    rcases Nat.lt_or_eq_of_le (Nat.lt_succ_iff.mp hk2) with hk | rfl
    · rw [setHeap_of_ne (h.ne hk1 hk (Nat.le_succ _))]
      exact h.link k hk1 hk
    · obtain ⟨ch, hch⟩ := h.heap_some hk1 (Nat.le_succ _)
      rw [setHeap_self, hch]
      rfl
  le := Nat.le_refl _

/-- The first chunk is freed. -/
theorem delete (h : Spine heap chunk lo linked top) :
    Spine (setHeap heap (chunk lo) none) chunk (lo + 1) linked top where
  inj k l hk1 hk2 hl1 hl2 := h.inj k l (by omega) hk2 (by omega) hl2
  live a := by
    by_cases ha : a = chunk lo
    · subst ha
      rw [setHeap_self]
      refine ⟨nofun, ?_⟩
      rintro ⟨k, hk1, hk2, heq⟩
      exact (h.ne (Nat.le_refl _) hk1 hk2 heq.symm).elim
    · rw [setHeap_of_ne ha, h.live]
      constructor
      · rintro ⟨k, hk1, hk2, rfl⟩
        have hne : k ≠ lo := fun heq => ha (by rw [heq])
        exact ⟨k, by omega, hk2, rfl⟩
      · rintro ⟨k, hk1, hk2, rfl⟩
        exact ⟨k, by omega, hk2, rfl⟩
  link k hk1 hk2 := by
    have hle := h.le
    rw [setHeap_of_ne (h.ne (Nat.le_refl _) hk1 (by omega)).symm]
    exact h.link k (by omega) hk2
  le := h.le

end Spine

/-- The queue `q` holds the slots from `f` to `e - 1`, with `e` the next free
one, and the chunks of these slots stand at distinct addresses. -/
structure Rep (N : Nat) (q : Yqueue T) (f e : Nat) (chunk : Nat → Addr) :
    Prop where
  le : f ≤ e
  inj : ∀ k l, f / N ≤ k → k ≤ e / N → f / N ≤ l → l ≤ e / N →
    chunk k = chunk l → k = l
  live : ∀ a, (q.heap a).isSome = true ↔
    ∃ k, f / N ≤ k ∧ k ≤ e / N ∧ chunk k = a
  link : ∀ k, f / N ≤ k → k < e / N →
    (q.heap (chunk k)).bind Chunk.next = some (chunk (k + 1))
  beginChunk : q.beginChunk = some (chunk (f / N))
  beginPos : q.beginPos = f % N
  endChunk : q.endChunk = some (chunk (e / N))
  endPos : q.endPos = e % N
  backChunk : 0 < e → q.backChunk = some (chunk ((e - 1) / N))
  backPos : 0 < e → q.backPos = (e - 1) % N

variable {N f e : Nat} {q q' : Yqueue T} {chunk : Nat → Addr}

theorem Rep.spine (h : Rep N q f e chunk) :
    Spine q.heap chunk (f / N) (e / N) (e / N) :=
  ⟨h.inj, h.live, h.link, Nat.le_refl _⟩

theorem Rep.front_eq (h : Rep N q f e chunk) : q.front = slot N chunk f := by
  simp [front, slot, h.beginChunk, h.beginPos]

theorem Rep.back_eq (h : Rep N q f e chunk) (he : 0 < e) :
    q.back = slot N chunk (e - 1) := by
  simp [back, slot, h.backChunk he, h.backPos he]

theorem Rep.slot_inj (h : Rep N q f e chunk) {j : Nat} (hi : f ≤ i)
    (hie : i ≤ e) (hj : f ≤ j) (hje : j ≤ e)
    (heq : slot N chunk i = slot N chunk j) : i = j :=
  h.spine.slot_inj (Nat.div_le_div_right hi) (Nat.div_le_div_right hie)
    (Nat.div_le_div_right hj) (Nat.div_le_div_right hje) heq

theorem Rep.heap_some (h : Rep N q f e chunk) (hi : f ≤ i) (hie : i ≤ e) :
    ∃ ch, q.heap (chunk (i / N)) = some ch :=
  h.spine.heap_some (Nat.div_le_div_right hi) (Nat.div_le_div_right hie)

/-- The slot after the last one of a chunk is the first of the next chunk. -/
theorem succ_div_mod_of_last (hN : 0 < N) (h : i % N + 1 = N) :
    (i + 1) / N = i / N + 1 ∧ (i + 1) % N = 0 := by
  refine (Nat.div_mod_unique hN).mpr ⟨?_, hN⟩
  have := Nat.div_add_mod i N
  rw [Nat.mul_succ]
  omega

theorem succ_div_mod_of_inner (hN : 0 < N) (h : i % N + 1 ≠ N) :
    (i + 1) / N = i / N ∧ (i + 1) % N = i % N + 1 := by
  have hlt := Nat.mod_lt i hN
  refine (Nat.div_mod_unique hN).mpr ⟨?_, by omega⟩
  have := Nat.div_add_mod i N
  omega

theorem Rep.create (fresh : Addr) :
    Rep N (create fresh : Yqueue T) 0 0 (fun _ => fresh) := by
  refine
    { le := Nat.le_refl _
      inj := ?_
      live := ?_
      link := ?_
      beginChunk := rfl
      beginPos := (Nat.zero_mod N).symm
      endChunk := rfl
      endPos := (Nat.zero_mod N).symm
      backChunk := fun h => (Nat.lt_irrefl _ h).elim
      backPos := fun h => (Nat.lt_irrefl _ h).elim }
  · intro k l hk hk' hl hl' _
    omega
  · intro a
    constructor
    · intro ha
      by_cases hne : a = fresh
      · exact ⟨0 / N, Nat.le_refl _, Nat.le_refl _, hne.symm⟩
      · simp [Yqueue.create, setHeap, hne] at ha
    · rintro ⟨k, _, _, rfl⟩
      simp [Yqueue.create, setHeap]
  · intro k hk hk'
    omega

/-- `push` that stays inside the chunk. -/
private theorem Rep.push_inner (h : Rep N q f e chunk) (hN : 0 < N)
    (hend : e % N + 1 ≠ N) :
    Rep N { q with backChunk := q.endChunk, backPos := q.endPos,
                   endPos := q.endPos + 1 } f (e + 1) chunk := by
  obtain ⟨hdiv, hmod⟩ := succ_div_mod_of_inner hN hend
  have hle := h.le
  exact
    { h with
      le := by omega
      inj := by rw [hdiv]; exact h.inj
      live := by rw [hdiv]; exact h.live
      link := by rw [hdiv]; exact h.link
      endChunk := by rw [hdiv]; exact h.endChunk
      endPos := by rw [hmod, ← h.endPos]
      backChunk := fun _ => h.endChunk
      backPos := fun _ => h.endPos }

/-- `push` that allocates. -/
private theorem Rep.push_last (h : Rep N q f e chunk) (hN : 0 < N)
    (hend : e % N + 1 = N) (hfresh : q.heap fresh = none) :
    Rep N { q with
      heap := setHeap (setHeap q.heap (chunk (e / N))
        ((q.heap (chunk (e / N))).map fun ch =>
          { ch with next := some fresh })) fresh (some .new)
      backChunk := q.endChunk, backPos := q.endPos
      endChunk := some fresh, endPos := 0 } f (e + 1)
      (extend chunk (e / N + 1) fresh) := by
  obtain ⟨hdiv, hmod⟩ := succ_div_mod_of_last hN hend
  have hle := h.le
  have hfe : f / N ≤ e / N := Nat.div_le_div_right hle
  have hne := h.spine.ne_fresh hfresh hfe (Nat.le_refl _)
  have hspine := (h.spine.alloc (by omega) hfresh).setNext hfe
  rw [extend_of_lt (Nat.lt_succ_self _), extend_self, setHeap_of_ne hne,
    setHeap_comm hne.symm] at hspine
  exact
    { le := by omega
      inj := by rw [hdiv]; exact hspine.inj
      live := by rw [hdiv]; exact hspine.live
      link := by rw [hdiv]; exact hspine.link
      beginChunk := by
        rw [extend_of_lt (by omega)]
        exact h.beginChunk
      beginPos := h.beginPos
      endChunk := by rw [hdiv, extend_self]
      endPos := hmod.symm
      backChunk := fun _ => by
        rw [Nat.add_sub_cancel, extend_of_lt (by omega)]
        exact h.endChunk
      backPos := fun _ => h.endPos }

/-- What `push` does: one more slot, every older slot and its value where they
were. -/
theorem Rep.push (h : Rep N q f e chunk) (hN : 0 < N)
    (hp : q.push N fresh = some q') :
    ∃ chunk', Rep N q' f (e + 1) chunk' ∧
      (∀ i, i ≤ e → slot N chunk' i = slot N chunk i) ∧
      (∀ i, f ≤ i → i ≤ e →
        q'.load (slot N chunk i) = q.load (slot N chunk i)) := by
  by_cases hend : e % N + 1 = N
  · have hend' : q.endPos + 1 = N := by rw [h.endPos]; exact hend
    cases hheap : q.heap fresh with
    | some ch => simp [Yqueue.push, hend', hheap] at hp
    | none =>
        simp only [Yqueue.push, hend', ne_eq, not_true_eq_false, if_false,
          hheap, Option.isSome_none, Bool.false_eq_true, h.endChunk,
          Option.some.injEq] at hp
        have hrep := h.push_last hN hend hheap
        rw [h.endChunk] at hrep
        subst hp
        refine ⟨_, hrep, ?_, ?_⟩
        · intro i hi
          have hdiv : i / N ≤ e / N := Nat.div_le_div_right hi
          simp only [slot, extend_of_lt (show i / N < e / N + 1 by omega)]
        · intro i hi hie
          obtain ⟨ch, hch⟩ := h.heap_some hi hie
          have hne : chunk (i / N) ≠ fresh := by
            intro heq
            rw [heq, hheap] at hch
            simp at hch
          by_cases hl : chunk (i / N) = chunk (e / N)
          · obtain ⟨ch', hch'⟩ :=
              h.heap_some h.le (Nat.le_refl e)
            have hne' : chunk (e / N) ≠ fresh := by rw [← hl]; exact hne
            simp [load, slot, setHeap, hl, hne', hch']
          · simp [load, slot, setHeap, hne, hl, hch]
  · have hend' : q.endPos + 1 ≠ N := by rw [h.endPos]; exact hend
    simp only [Yqueue.push, hend', ne_eq, not_false_eq_true, if_true,
      Option.some.injEq] at hp
    have hrep := h.push_inner hN hend
    subst hp
    exact ⟨chunk, hrep, fun i _ => rfl, fun i _ _ => rfl⟩

/-- What `pop` does: the front moves on by one, the younger slots and their
values stay where they were. -/
theorem Rep.pop (h : Rep N q f e chunk) (hN : 0 < N) (hlt : f < e) :
    Rep N (q.pop N) (f + 1) e chunk ∧
      ∀ i, f + 1 ≤ i → i ≤ e →
        (q.pop N).load (slot N chunk i) = q.load (slot N chunk i) := by
  by_cases hlast : f % N + 1 = N
  · obtain ⟨hdiv, hmod⟩ := succ_div_mod_of_last hN hlast
    have hpos : q.beginPos + 1 = N := by rw [h.beginPos]; exact hlast
    have hfe : f / N + 1 ≤ e / N := by
      rw [← hdiv]
      exact Nat.div_le_div_right hlt
    have hpop : q.pop N = { q with
        heap := setHeap q.heap (chunk (f / N)) none
        beginChunk := (q.heap (chunk (f / N))).bind Chunk.next
        beginPos := 0 } := by
      simp only [Yqueue.pop, hpos, if_true, h.beginChunk]
    rw [hpop]
    have hspine := h.spine.delete
    rw [← hdiv] at hspine
    refine ⟨?_, ?_⟩
    · exact
        { h with
          le := hlt
          inj := hspine.inj
          live := hspine.live
          link := hspine.link
          beginChunk := by
            rw [hdiv]
            exact h.link (f / N) (Nat.le_refl _) (by omega)
          beginPos := hmod.symm }
    · intro i hi hie
      have hi' : f / N + 1 ≤ i / N := by
        rw [← hdiv]
        exact Nat.div_le_div_right hi
      have hne := h.spine.ne (Nat.le_refl _) hi' (Nat.div_le_div_right hie)
      simp [load, slot, setHeap, hne.symm]
  · obtain ⟨hdiv, hmod⟩ := succ_div_mod_of_inner hN hlast
    have hpos : q.beginPos + 1 ≠ N := by rw [h.beginPos]; exact hlast
    have hpop : q.pop N = { q with beginPos := q.beginPos + 1 } := by
      simp only [Yqueue.pop, hpos, if_false]
    rw [hpop]
    refine ⟨?_, fun i _ _ => rfl⟩
    exact
      { h with
        le := hlt
        inj := by rw [hdiv]; exact h.inj
        live := by rw [hdiv]; exact h.live
        link := by rw [hdiv]; exact h.link
        beginChunk := by rw [hdiv]; exact h.beginChunk
        beginPos := by rw [hmod, ← h.beginPos] }

theorem isSome_store (q : Yqueue T) (p : SlotPtr) (v : T) (a : Addr) :
    ((q.store p v).heap a).isSome = (q.heap a).isSome := by
  match p with
  | none => rfl
  | some (b, i) => by_cases hb : a = b <;> simp [Yqueue.store, setHeap, hb]

theorem next_store (q : Yqueue T) (p : SlotPtr) (v : T) (a : Addr) :
    ((q.store p v).heap a).bind Chunk.next = (q.heap a).bind Chunk.next := by
  match p with
  | none => rfl
  | some (b, i) =>
      by_cases hb : a = b
      · subst hb
        cases hheap : q.heap a <;> simp [Yqueue.store, setHeap, hheap]
      · simp [Yqueue.store, setHeap, hb]

/-- Storing through a slot pointer does not move anything. -/
theorem Spine.store {lo linked top : Nat} (h : Spine q.heap chunk lo linked top)
    (p : SlotPtr) (v : T) : Spine (q.store p v).heap chunk lo linked top :=
  { h with
    live := fun a => by rw [isSome_store]; exact h.live a
    link := fun k hk1 hk2 => by rw [next_store]; exact h.link k hk1 hk2 }

theorem Rep.store (h : Rep N q f e chunk) (p : SlotPtr) (v : T) :
    Rep N (q.store p v) f e chunk := by
  have hspine := h.spine.store p v
  match p with
  | none => exact h
  | some (a, i) => exact { h with live := hspine.live, link := hspine.link }

theorem load_store_self {a : Addr} {ch : Chunk T} (h : q.heap a = some ch)
    (v : T) :
    (q.store (some (a, i)) v).load (some (a, i)) = some v := by
  simp [Yqueue.store, load, setHeap, h]

theorem load_store_of_ne {p p' : SlotPtr} (h : p' ≠ p) (v : T) :
    (q.store p v).load p' = q.load p' := by
  match p, p' with
  | none, _ => rfl
  | some _, none => rfl
  | some (a, i), some (b, j) =>
      by_cases hb : b = a
      · subst hb
        have hj : j ≠ i := fun heq => h (by rw [heq])
        cases hheap : q.heap b <;>
          simp [Yqueue.store, load, setHeap, hheap, hj]
      · simp [Yqueue.store, load, setHeap, hb]

theorem Rep.load_store_self (h : Rep N q f e chunk) (hi : f ≤ i) (hie : i ≤ e)
    (v : T) :
    (q.store (slot N chunk i) v).load (slot N chunk i) = some v := by
  obtain ⟨ch, hch⟩ := h.heap_some hi hie
  exact Yqueue.load_store_self hch v

theorem Rep.load_store_ne (h : Rep N q f e chunk) {j : Nat} (hi : f ≤ i)
    (hie : i ≤ e) (hj : f ≤ j) (hje : j ≤ e) (hne : j ≠ i) (v : T) :
    (q.store (slot N chunk i) v).load (slot N chunk j) =
      q.load (slot N chunk j) :=
  load_store_of_ne (fun heq => hne (h.slot_inj hj hje hi hie heq)) v

end Yqueue

end ZeroMQ
