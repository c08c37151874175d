import Mathlib.Data.List.Nodup
import ZeroMQ.Queue.Yqueue

/-!
# The statements of `yqueue_t`

One thread calls `push` and `back`, another one `pop` and `front`
(`libzmq/zmq/yqueue.hpp`).  `pushStep` and `popStep` are the two functions
statement by statement, so that the other thread may run between any two of
them.  A statement that follows a pointer to a chunk that is not there has no
outcome.

A `Cell` is a member of the queue, the link of a chunk or one of its values;
`PushTouches` and `PopTouches` list the cells of a statement, and `Local` says
that it depends on those cells only and changes no other.

## Main definitions

* `Yqueue.pushStep`, `Yqueue.popStep` — the statements of `push` and `pop`.
* `Yqueue.Local`, `Yqueue.PushTouches`, `Yqueue.PopTouches` — what a statement
  touches.
* `Yqueue.Chain`, `Yqueue.destroy` — the list of the chunks, and the loop of the
  destructor.

## Main results

* `Yqueue.pushStep_local`, `Yqueue.popStep_local` — no other cell is touched.
* `Yqueue.common_cell` — what the two threads have in common.
* `Yqueue.Rep.destroy` — the destructor frees every chunk once.
-/

namespace ZeroMQ

/-! ## Statements -/

/-- Where `push` is, by the statement that is next.  The first one is executed
with the call. -/
inductive PushPc where
  | idle
  | backPos
  | count
  | alloc
  | link (new : Addr)
  | follow
  | rewind
  deriving DecidableEq, Repr

/-- Where `pop` is; `o` is its local variable. -/
inductive PopPc where
  | idle
  | save
  | follow (o : Addr)
  | rewind (o : Addr)
  | delete (o : Addr)
  deriving DecidableEq, Repr

namespace Yqueue

variable {T : Type} {c : Cell} {chunk : Nat → Addr}

/-- A statement of `push`; `fresh` is what `new` returns. -/
def pushStep (N : Nat) (fresh : Addr) (pc : PushPc) (q : Yqueue T) :
    Option (Yqueue T × PushPc) :=
  match pc with
  | .idle => some ({ q with backChunk := q.endChunk }, .backPos)
  | .backPos => some ({ q with backPos := q.endPos }, .count)
  | .count =>
      some ({ q with endPos := q.endPos + 1 },
        if q.endPos + 1 ≠ N then .idle else .alloc)
  | .alloc =>
      if (q.heap fresh).isSome then none
      else some ({ q with heap := setHeap q.heap fresh (some .new) }, .link fresh)
  | .link new =>
      q.endChunk.bind fun a => (q.heap a).map fun ch =>
        ({ q with heap := setHeap q.heap a (some { ch with next := some new }) },
          .follow)
  | .follow =>
      -- assert (end_chunk->next); end_chunk = end_chunk->next
      q.endChunk.bind fun a => (q.heap a).bind fun ch => ch.next.map fun b =>
        ({ q with endChunk := some b }, .rewind)
  | .rewind => some ({ q with endPos := 0 }, .idle)

/-- A statement of `pop`. -/
def popStep (N : Nat) (pc : PopPc) (q : Yqueue T) :
    Option (Yqueue T × PopPc) :=
  match pc with
  | .idle =>
      some ({ q with beginPos := q.beginPos + 1 },
        if q.beginPos + 1 = N then .save else .idle)
  | .save => q.beginChunk.map fun o => (q, .follow o)
  | .follow o =>
      q.beginChunk.bind fun a => (q.heap a).map fun ch =>
        ({ q with beginChunk := ch.next }, .rewind o)
  | .rewind o => some ({ q with beginPos := 0 }, .delete o)
  | .delete o =>
      if (q.heap o).isSome then
        some ({ q with heap := setHeap q.heap o none }, .idle)
      else none

/-! ## Cells -/

/-- A member of the queue, the link of a chunk or one of its values. -/
inductive Cell where
  | beginChunk
  | beginPos
  | backChunk
  | backPos
  | endChunk
  | endPos
  | next (a : Addr)
  | value (a : Addr) (i : Nat)
  deriving DecidableEq, Repr

/-- What a cell holds; the cells of an address without a chunk are absent. -/
inductive Word (T : Type) where
  | pointer (p : Option Addr)
  | position (n : Nat)
  | value (v : Option T)
  | absent

def cell (q : Yqueue T) : Cell → Word T
  | .beginChunk => .pointer q.beginChunk
  | .beginPos => .position q.beginPos
  | .backChunk => .pointer q.backChunk
  | .backPos => .position q.backPos
  | .endChunk => .pointer q.endChunk
  | .endPos => .position q.endPos
  | .next a =>
      match q.heap a with
      | none => .absent
      | some ch => .pointer ch.next
  | .value a i =>
      match q.heap a with
      | none => .absent
      | some ch => .value (ch.values i)

/-- The cells of the chunk at `a`. -/
def Cell.InChunk (a : Addr) (c : Cell) : Prop := c = .next a ∨ ∃ i, c = .value a i

/-- The cells of the statement `push` executes next. -/
def PushTouches (fresh : Addr) (pc : PushPc) (q : Yqueue T) (c : Cell) : Prop :=
  match pc with
  | .idle => c = .endChunk ∨ c = .backChunk
  | .backPos => c = .endPos ∨ c = .backPos
  | .count => c = .endPos
  | .alloc => c.InChunk fresh
  | .link _ => c = .endChunk ∨ ∃ a, q.endChunk = some a ∧ c = .next a
  | .follow => c = .endChunk ∨ ∃ a, q.endChunk = some a ∧ c = .next a
  | .rewind => c = .endPos

/-- The cells of the statement `pop` executes next. -/
def PopTouches (pc : PopPc) (q : Yqueue T) (c : Cell) : Prop :=
  match pc with
  | .idle => c = .beginPos
  | .save => c = .beginChunk
  | .follow _ => c = .beginChunk ∨ ∃ a, q.beginChunk = some a ∧ c = .next a
  | .rewind _ => c = .beginPos
  | .delete o => c.InChunk o

/-- A statement changes no cell but those it touches, and whether it has an
outcome and which one it has depends on no other. -/
structure Local {π : Type} (step : Yqueue T → Option (Yqueue T × π))
    (touches : Yqueue T → Cell → Prop) : Prop where
  writes : ∀ {q q' p}, step q = some (q', p) →
    ∀ c, ¬ touches q c → q'.cell c = q.cell c
  reads : ∀ {q r q' p}, step q = some (q', p) →
    (∀ c, touches q c → r.cell c = q.cell c) →
    ∃ r', step r = some (r', p) ∧ ∀ c, touches q c → r'.cell c = q'.cell c

section Cells

variable {q r : Yqueue T} {a : Addr} {ch : Chunk T}

theorem cell_next (h : q.heap a = some ch) :
    q.cell (.next a) = .pointer ch.next := by
  rw [cell, h]

theorem heap_of_cell_next (h : r.cell (.next a) = q.cell (.next a))
    (hq : q.heap a = some ch) : ∃ ch', r.heap a = some ch' ∧ ch'.next = ch.next := by
  rw [cell_next hq] at h
  cases hheap : r.heap a with
  | none =>
      rw [cell, hheap] at h
      cases h
  | some ch' =>
      rw [cell_next hheap] at h
      exact ⟨ch', rfl, Word.pointer.inj h⟩

theorem heap_none_of_cell_next (h : r.cell (.next a) = q.cell (.next a))
    (hq : q.heap a = none) : r.heap a = none := by
  cases hheap : r.heap a with
  | none => rfl
  | some ch =>
      rw [cell_next hheap, cell, hq] at h
      cases h

theorem cell_setHeap {chunk : Option (Chunk T)} (h : ¬ c.InChunk a) :
    ({ q with heap := setHeap q.heap a chunk } : Yqueue T).cell c = q.cell c := by
  cases c with
  | next b =>
      have hne : b ≠ a := fun heq => h (.inl (by rw [heq]))
      simp only [cell, setHeap_of_ne hne]
  | value b i =>
      have hne : b ≠ a := fun heq => h (.inr ⟨i, by rw [heq]⟩)
      simp only [cell, setHeap_of_ne hne]
  | beginChunk | beginPos | backChunk | backPos | endChunk | endPos => rfl

/-- What a chunk holds does not depend on the rest of the heap. -/
theorem cell_setHeap_congr {chunk : Option (Chunk T)} (h : c.InChunk a) :
    ({ r with heap := setHeap r.heap a chunk } : Yqueue T).cell c =
      ({ q with heap := setHeap q.heap a chunk } : Yqueue T).cell c := by
  rcases h with rfl | ⟨i, rfl⟩
  · simp only [cell, setHeap_self]
  · simp only [cell, setHeap_self]

theorem cell_setNext {p : Option Addr} (hq : q.heap a = some ch)
    (h : c ≠ .next a) :
    ({ q with heap := setHeap q.heap a (some { ch with next := p }) } :
      Yqueue T).cell c = q.cell c := by
  by_cases hin : c.InChunk a
  · obtain ⟨i, rfl⟩ := hin.resolve_left h
    simp only [cell, setHeap_self, hq]
  · exact cell_setHeap hin

end Cells

theorem pushStep_local (N : Nat) (fresh : Addr) (pc : PushPc) :
    Local (pushStep (T := T) N fresh pc) (PushTouches fresh pc) where
  writes {q q' p} hs c hc := by
    cases pc with
    | idle =>
        cases hs
        cases c with
        | backChunk => exact (hc (.inr rfl)).elim
        | _ => rfl
    | backPos =>
        cases hs
        cases c with
        | backPos => exact (hc (.inr rfl)).elim
        | _ => rfl
    | count | rewind =>
        cases hs
        cases c with
        | endPos => exact (hc rfl).elim
        | _ => rfl
    | alloc =>
        obtain ⟨_, hs⟩ := Option.ite_none_left_eq_some.mp hs
        cases hs
        exact cell_setHeap hc
    | link new =>
        obtain ⟨a, ha, hs⟩ := Option.bind_eq_some_iff.mp hs
        obtain ⟨ch, hch, hs⟩ := Option.map_eq_some_iff.mp hs
        cases hs
        exact cell_setNext hch fun heq => hc (.inr ⟨a, ha, heq⟩)
    | follow =>
        obtain ⟨a, ha, hs⟩ := Option.bind_eq_some_iff.mp hs
        obtain ⟨ch, hch, hs⟩ := Option.bind_eq_some_iff.mp hs
        obtain ⟨b, hb, hs⟩ := Option.map_eq_some_iff.mp hs
        cases hs
        cases c with
        | endChunk => exact (hc (.inl rfl)).elim
        | _ => rfl
  reads {q r q' p} hs hsame := by
    cases pc with
    | idle =>
        cases hs
        have hend : r.endChunk = q.endChunk := Word.pointer.inj (hsame _ (.inl rfl))
        refine ⟨_, rfl, fun c hc => ?_⟩
        rcases hc with rfl | rfl
        · exact congrArg Word.pointer hend
        · exact congrArg Word.pointer hend
    | backPos =>
        cases hs
        have hend : r.endPos = q.endPos := Word.position.inj (hsame _ (.inl rfl))
        refine ⟨_, rfl, fun c hc => ?_⟩
        rcases hc with rfl | rfl
        · exact congrArg Word.position hend
        · exact congrArg Word.position hend
    | count =>
        cases hs
        have hend : r.endPos = q.endPos := Word.position.inj (hsame _ rfl)
        refine ⟨{ r with endPos := r.endPos + 1 }, ?_, fun c hc => ?_⟩
        · rw [pushStep, hend]
        · cases hc
          show Word.position _ = Word.position _
          rw [hend]
    | alloc =>
        obtain ⟨hnone, hs⟩ := Option.ite_none_left_eq_some.mp hs
        cases hs
        rw [Bool.not_eq_true, Option.isSome_eq_false_iff, Option.isNone_iff_eq_none]
          at hnone
        have hr := heap_none_of_cell_next (hsame _ (.inl rfl)) hnone
        refine ⟨_, if_neg ?_, fun c hc => cell_setHeap_congr hc⟩
        rw [hr]
        exact nofun
    | link new =>
        obtain ⟨a, ha, hs⟩ := Option.bind_eq_some_iff.mp hs
        obtain ⟨ch, hch, hs⟩ := Option.map_eq_some_iff.mp hs
        cases hs
        have hend : r.endChunk = some a :=
          (Word.pointer.inj (hsame _ (.inl rfl))).trans ha
        obtain ⟨ch', hch', _⟩ := heap_of_cell_next (hsame _ (.inr ⟨a, ha, rfl⟩)) hch
        let linked : Chunk T := { ch' with next := some new }
        refine ⟨{ r with heap := setHeap r.heap a (some linked) }, ?_,
          fun c hc => ?_⟩
        · simp only [pushStep, hend, hch', Option.bind_some, Option.map_some,
            linked]
        · rcases hc with rfl | ⟨b, hb, rfl⟩
          · exact hsame _ (.inl rfl)
          · rw [ha] at hb
            cases hb
            simp only [cell, setHeap_self, linked]
    | follow =>
        obtain ⟨a, ha, hs⟩ := Option.bind_eq_some_iff.mp hs
        obtain ⟨ch, hch, hs⟩ := Option.bind_eq_some_iff.mp hs
        obtain ⟨b, hb, hs⟩ := Option.map_eq_some_iff.mp hs
        cases hs
        have hend : r.endChunk = some a :=
          (Word.pointer.inj (hsame _ (.inl rfl))).trans ha
        obtain ⟨ch', hch', hb'⟩ :=
          heap_of_cell_next (hsame _ (.inr ⟨a, ha, rfl⟩)) hch
        refine ⟨{ r with endChunk := some b }, ?_, fun c hc => ?_⟩
        · simp only [pushStep, hend, hch', hb', hb, Option.bind_some,
            Option.map_some]
        · rcases hc with rfl | ⟨a', ha', rfl⟩
          · rfl
          · exact hsame _ (.inr ⟨a', ha', rfl⟩)
    | rewind =>
        cases hs
        refine ⟨_, rfl, fun c hc => ?_⟩
        cases hc
        rfl

theorem popStep_local (N : Nat) (pc : PopPc) :
    Local (popStep (T := T) N pc) (PopTouches pc) where
  writes {q q' p} hs c hc := by
    cases pc with
    | idle | rewind o =>
        cases hs
        cases c with
        | beginPos => exact (hc rfl).elim
        | _ => rfl
    | save =>
        obtain ⟨o, _, hs⟩ := Option.map_eq_some_iff.mp hs
        cases hs
        rfl
    | follow o =>
        obtain ⟨a, ha, hs⟩ := Option.bind_eq_some_iff.mp hs
        obtain ⟨ch, hch, hs⟩ := Option.map_eq_some_iff.mp hs
        cases hs
        cases c with
        | beginChunk => exact (hc (.inl rfl)).elim
        | _ => rfl
    | delete o =>
        obtain ⟨_, hs⟩ := Option.ite_none_right_eq_some.mp hs
        cases hs
        exact cell_setHeap hc
  reads {q r q' p} hs hsame := by
    cases pc with
    | idle =>
        cases hs
        have hbegin : r.beginPos = q.beginPos := Word.position.inj (hsame _ rfl)
        refine ⟨{ r with beginPos := r.beginPos + 1 }, ?_, fun c hc => ?_⟩
        · rw [popStep, hbegin]
        · cases hc
          show Word.position _ = Word.position _
          rw [hbegin]
    | save =>
        obtain ⟨o, ho, hs⟩ := Option.map_eq_some_iff.mp hs
        cases hs
        have hbegin : r.beginChunk = some o :=
          (Word.pointer.inj (hsame _ rfl)).trans ho
        refine ⟨r, ?_, hsame⟩
        rw [popStep, hbegin]
        rfl
    | follow o =>
        obtain ⟨a, ha, hs⟩ := Option.bind_eq_some_iff.mp hs
        obtain ⟨ch, hch, hs⟩ := Option.map_eq_some_iff.mp hs
        cases hs
        have hbegin : r.beginChunk = some a :=
          (Word.pointer.inj (hsame _ (.inl rfl))).trans ha
        obtain ⟨ch', hch', hnext⟩ :=
          heap_of_cell_next (hsame _ (.inr ⟨a, ha, rfl⟩)) hch
        refine ⟨{ r with beginChunk := ch.next }, ?_, fun c hc => ?_⟩
        · simp only [popStep, hbegin, hch', hnext, Option.bind_some,
            Option.map_some]
        · rcases hc with rfl | ⟨a', ha', rfl⟩
          · rfl
          · exact hsame _ (.inr ⟨a', ha', rfl⟩)
    | rewind o =>
        cases hs
        refine ⟨_, rfl, fun c hc => ?_⟩
        cases hc
        rfl
    | delete o =>
        obtain ⟨hsome, hs⟩ := Option.ite_none_right_eq_some.mp hs
        cases hs
        obtain ⟨ch, hch⟩ := Option.isSome_iff_exists.mp hsome
        obtain ⟨ch', hch', _⟩ := heap_of_cell_next (hsame _ (.inl rfl)) hch
        refine ⟨_, if_pos ?_, fun c hc => cell_setHeap_congr hc⟩
        rw [hch']
        rfl

/-- The two threads have members of their own.  They have the links of the
chunks in common, and the memory that one gives back and the other gets. -/
theorem common_cell {fresh : Addr} {pc : PushPc} {pc' : PopPc} {q q' : Yqueue T}
    (h : PushTouches fresh pc q c) (h' : PopTouches pc' q' c) :
    (∃ a, c = .next a) ∨ pc = .alloc ∧ ∃ o, pc' = .delete o := by
  cases c with
  | next a => exact .inl ⟨a, rfl⟩
  | beginChunk | beginPos =>
      cases pc <;> simp [PushTouches, Cell.InChunk] at h
  | backChunk | backPos | endChunk | endPos =>
      cases pc' <;> simp [PopTouches, Cell.InChunk] at h'
  | value a i =>
      cases pc with
      | alloc =>
          cases pc' with
          | delete o => exact .inr ⟨rfl, o, rfl⟩
          | _ => simp [PopTouches] at h'
      | _ => simp [PushTouches] at h

/-! ## The list of chunks -/

/-- `as` are the chunks from `a` to `last`, by their links. -/
inductive Chain (heap : Addr → Option (Chunk T)) (last : Addr) :
    Addr → List Addr → Prop where
  | last : (heap last).isSome = true → Chain heap last last [last]
  | link {a b : Addr} {as : List Addr} (hne : a ≠ last)
      (hlink : (heap a).bind Chunk.next = some b) (rest : Chain heap last b as) :
      Chain heap last a (a :: as)

/-- The loop of the destructor, with the chunks it deletes.  It has no outcome if
it deletes or reads a chunk that is not there, or does not stop within `n`
turns.  The link of the last chunk is read although nobody has written it, and
not used. -/
def destroy : Nat → Yqueue T → Option (Yqueue T × List Addr)
  | 0, _ => none
  | n + 1, q =>
      q.beginChunk.bind fun o => (q.heap o).bind fun ch =>
        let q' := { q with
          heap := setHeap q.heap o none, beginChunk := ch.next }
        if some o = q.endChunk then some (q', [o])
        else (destroy n q').map fun r => (r.1, o :: r.2)

/-- The addresses of the chunks from `lo` to `top`. -/
def addrs (chunk : Nat → Addr) (lo top : Nat) : List Addr :=
  (List.range' lo (top + 1 - lo)).map chunk

theorem addrs_cons {lo top : Nat} (h : lo ≤ top) :
    addrs chunk lo top = chunk lo :: addrs chunk (lo + 1) top := by
  have hlength : top + 1 - lo = (top + 1 - (lo + 1)) + 1 := by omega
  rw [addrs, hlength, List.range'_succ]
  rfl

theorem addrs_self (chunk : Nat → Addr) (top : Nat) :
    addrs chunk top top = [chunk top] := by
  rw [addrs_cons (Nat.le_refl _), addrs, Nat.sub_self]
  rfl

theorem mem_addrs {lo top : Nat} {a : Addr} :
    a ∈ addrs chunk lo top ↔ ∃ k, lo ≤ k ∧ k ≤ top ∧ chunk k = a := by
  simp only [addrs, List.mem_map, List.mem_range'_1]
  constructor
  · rintro ⟨k, ⟨hlo, hlt⟩, rfl⟩
    exact ⟨k, hlo, by omega, rfl⟩
  · rintro ⟨k, hlo, htop, rfl⟩
    exact ⟨k, ⟨hlo, by omega⟩, rfl⟩

namespace Spine

variable {heap : Addr → Option (Chunk T)} {lo linked top n : Nat}

theorem nodup_addrs (h : Spine heap chunk lo linked top) {first last : Nat}
    (hfirst : lo ≤ first) (hlast : last ≤ top) :
    (addrs chunk first last).Nodup := by
  refine List.Nodup.map_on ?_ List.nodup_range'
  intro k hk l hl heq
  rw [List.mem_range'_1] at hk hl
  exact h.inj k l (by omega) (by omega) (by omega) (by omega) heq

/-- The links lead from each chunk to every later one that is linked. -/
theorem chain (h : Spine heap chunk lo linked top) {k last : Nat}
    (hk : lo ≤ k) (hle : k ≤ last) (hlast : last ≤ linked) :
    Chain heap (chunk last) (chunk k) (addrs chunk k last) := by
  have htop := h.le
  -- induction on the number of links
  obtain ⟨d, rfl⟩ := Nat.exists_eq_add_of_le hle
  induction d generalizing k with
  | zero =>
      rw [Nat.add_zero, addrs_self]
      exact .last ((h.live _).mpr ⟨k, hk, by omega, rfl⟩)
  | succ d ih =>
      rw [addrs_cons hle]
      refine .link (h.ne hk (by omega) (by omega)) (h.link k hk (by omega)) ?_
      have hnext := ih (k := k + 1) (by omega) (by omega) (by omega)
      rw [Nat.add_right_comm, Nat.add_assoc] at hnext
      exact hnext

/-- The destructor deletes the chunks one after the other, and nothing is
left. -/
theorem destroy {q : Yqueue T} (h : Spine q.heap chunk lo top top)
    (hle : lo ≤ top) (hbegin : q.beginChunk = some (chunk lo))
    (hend : q.endChunk = some (chunk top)) (hn : top + 1 - lo ≤ n) :
    ∃ q', q.destroy n = some (q', addrs chunk lo top) ∧
      ∀ a, q'.heap a = none := by
  induction n generalizing q lo with
  | zero => omega
  | succ n ih =>
      obtain ⟨ch, hch⟩ := h.heap_some (Nat.le_refl lo) hle
      simp only [Yqueue.destroy, hbegin, hch, hend, Option.bind_some]
      rcases Nat.lt_or_eq_of_le hle with hlt | rfl
      · have hne : some (chunk lo) ≠ some (chunk top) := fun heq =>
          h.ne (Nat.le_refl _) hlt (Nat.le_refl _) (Option.some.inj heq)
        have hnext := h.link lo (Nat.le_refl _) hlt
        rw [hch, Option.bind_some] at hnext
        rw [if_neg hne, addrs_cons hle, hnext]
        let q₁ : Yqueue T :=
          { q with
            heap := setHeap q.heap (chunk lo) none
            beginChunk := some (chunk (lo + 1)) }
        have hspine : Spine q₁.heap chunk (lo + 1) top top := h.delete
        obtain ⟨q', hq', hnone⟩ := ih hspine hlt rfl hend (by omega)
        simp only [q₁, hend] at hq'
        rw [hq']
        exact ⟨q', rfl, hnone⟩
      · rw [if_pos rfl, addrs_self]
        refine ⟨_, rfl, fun a => ?_⟩
        rw [← Option.not_isSome_iff_eq_none, h.delete.live]
        rintro ⟨k, hk1, hk2, _⟩
        omega

end Spine

theorem Rep.destroy {N f e : Nat} {q : Yqueue T} (h : Rep N q f e chunk)
    {n : Nat} (hn : e / N + 1 - f / N ≤ n) :
    ∃ q', q.destroy n = some (q', addrs chunk (f / N) (e / N)) ∧
      ∀ a, q'.heap a = none :=
  h.spine.destroy (Nat.div_le_div_right h.le) h.beginChunk h.endChunk hn

end Yqueue

end ZeroMQ
