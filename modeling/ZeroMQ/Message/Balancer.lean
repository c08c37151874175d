import Mathlib.Logic.Function.Basic
import ZeroMQ.Lib.Rotation
import ZeroMQ.Lib.Run
import ZeroMQ.Message.Raw

/-!
# `load_balancer_t`

The demux of a load-balancing exchange (`libzmq/load_balancer.cpp`): every
message goes to one of the pipes, and the pipes take turns.  Pipes are named by
their pointers; what a pointer leads to is changed by `write` and, between two
calls, by anything else that happens to the pipe.

`served` is a history: the pipe that took each message, with the message.

## Main results

* `findWritable_scan` — the search of `write` is a search of the ring of pipes
  from `current` on.
* `write_taken`, `write_refused` — what the two results of `write` mean.
* `load_balancing_round_robin` — over every sequence of calls, `current` is
  valid, a message goes to the first writable pipe from `current` on, and pipes
  that all stay writable get equally many messages.
-/

namespace ZeroMQ

open ZeroMQ.Lib

/-- The members of `load_balancer_t`. -/
structure LoadBalancer where
  pipes : List Nat
  current : Nat
  deriving DecidableEq, Repr

/-- The pipes behind the pointers. -/
abbrev PipeMem := Nat → Pipe Handle

namespace LoadBalancer

/-- `send_to`. -/
def sendTo (b : LoadBalancer) (p : Nat) : LoadBalancer :=
  { b with pipes := b.pipes ++ [p] }

/-- `(*it)->write (msg)` for every pipe. -/
def writeAll (msg : RawMessage) : List Nat → PipeMem → Option PipeMem
  | [], mem => some mem
  | p :: ps, mem =>
      ((mem p).write msg).bind fun q =>
        writeAll msg ps (Function.update mem p q)

/-- The search of `write`, for at most as many rounds as it is told: whether a
pipe was found, with `current` at that pipe. -/
def findWritable (mem : PipeMem) : Nat → LoadBalancer →
    Option (Bool × LoadBalancer)
  | 0, b => some (false, b)
  | i + 1, b =>
      b.pipes[b.current]?.bind fun p =>
        if (mem p).checkWrite then some (true, b)
        else
          findWritable mem i
            { b with current := (b.current + 1) % b.pipes.length }

/-- `write`: its result, the message, the heap, the balancer and the pipes. -/
def write (b : LoadBalancer) (msg : RawMessage) (h : Heap) (mem : PipeMem) :
    Option (Bool × RawMessage × Heap × LoadBalancer × PipeMem) :=
  if msg.isDelimiter then
    (writeAll msg b.pipes mem).map fun mem' =>
      (true, (rawMessageInit msg 0 h).1, (rawMessageInit msg 0 h).2, b, mem')
  else if b.pipes.length = 0 then some (false, msg, h, b, mem)
  else
    (b.findWritable mem b.pipes.length).bind fun (found, b') =>
      if !found then some (false, msg, h, b', mem)
      else
        b'.pipes[b'.current]?.bind fun p =>
          ((mem p).write msg).map fun q =>
            (true, (rawMessageInit msg 0 h).1, (rawMessageInit msg 0 h).2,
              { b' with current := (b'.current + 1) % b'.pipes.length },
              Function.update mem p q)

/-- `release_pipe`; it asserts that the pipe is listed. -/
def releasePipe (b : LoadBalancer) (p : Nat) : Option LoadBalancer :=
  if p ∈ b.pipes then
    let pipes := b.pipes.erase p
    some
      { pipes := pipes
        current := if b.current = pipes.length then 0 else b.current }
  else none

/-- The pipe the search of `write` stops at. -/
def target (b : LoadBalancer) (mem : PipeMem) : Option Nat :=
  (b.findWritable mem b.pipes.length).bind fun (_, b') => b'.pipes[b'.current]?

/-- `current` is a valid index, if there is one. -/
def Valid (b : LoadBalancer) : Prop := RingIndex b.pipes.length b.current

/-! ## The search -/

variable {b b' : LoadBalancer} {mem mem' : PipeMem} {msg msg' : RawMessage}
  {h h' : Heap} {p p' : Nat} {found : Bool}

/-- Trying a pipe: it answers when it is writable. -/
def tryPipe (mem : PipeMem) (p : Nat) (r : Option Unit) (p' : Nat) : Prop :=
  p' = p ∧ r = if (mem p).checkWrite then some () else none

theorem findWritable_scan {k : Nat}
    (hf : b.findWritable mem k = some (found, b')) :
    b'.pipes = b.pipes ∧
      Scan (tryPipe mem) k b.current b.pipes
        (if found then some () else none) b'.current b.pipes := by
  induction k generalizing b with
  | zero =>
      cases hf
      exact ⟨rfl, .done _ _⟩
  | succ k ih =>
      rw [findWritable] at hf
      obtain ⟨p, hp, hf⟩ := Option.bind_eq_some_iff.mp hf
      have hset : b.pipes.set b.current p = b.pipes := by
        obtain ⟨hlt, hget⟩ := List.getElem?_eq_some_iff.mp hp
        rw [← hget, List.set_getElem_self]
      by_cases hw : (mem p).checkWrite = true
      · rw [if_pos hw] at hf
        cases hf
        refine ⟨rfl, ?_⟩
        have hhit : Scan (tryPipe mem) (k + 1) b'.current b'.pipes (some ())
            b'.current (b'.pipes.set b'.current p) :=
          .hit hp ⟨rfl, by rw [if_pos hw]⟩
        rwa [hset] at hhit
      · rw [if_neg hw] at hf
        obtain ⟨hpipes, hscan⟩ := ih hf
        refine ⟨hpipes, ?_⟩
        refine .pass hp ⟨rfl, by rw [if_neg hw]⟩ ?_
        rwa [hset]

theorem findWritable_isSome (k : Nat) (hc : b.current < b.pipes.length) :
    (b.findWritable mem k).isSome = true := by
  induction k generalizing b with
  | zero => rfl
  | succ k ih =>
      rw [findWritable, List.getElem?_eq_getElem hc, Option.bind_some]
      split
      · rfl
      · exact ih (Nat.mod_lt _ (by omega))

/-- `p` is the first writable pipe from `current` on, `j` places further. -/
structure FirstWritable (b : LoadBalancer) (mem : PipeMem) (j p : Nat) :
    Prop where
  lt : j < b.pipes.length
  listed : b.pipes[(b.current + j) % b.pipes.length]? = some p
  writable : (mem p).checkWrite = true
  first : ∀ i < j, ∀ p', b.pipes[(b.current + i) % b.pipes.length]? = some p' →
    (mem p').checkWrite = false

theorem tryPipe_none (ht : tryPipe mem p none p') :
    p' = p ∧ (mem p).checkWrite = false := by
  obtain ⟨rfl, hr⟩ := ht
  cases hw : (mem p').checkWrite with
  | false => exact ⟨rfl, rfl⟩
  | true => simp [hw] at hr

theorem tryPipe_some (ht : tryPipe mem p (some ()) p') :
    (mem p).checkWrite = true := by
  obtain ⟨rfl, hr⟩ := ht
  cases hw : (mem p').checkWrite with
  | false => simp [hw] at hr
  | true => rfl

theorem findWritable_cases (hc : b.current < b.pipes.length) :
    (∃ j p, b.FirstWritable mem j p ∧
      b.findWritable mem b.pipes.length = some (true,
        { b with current := (b.current + j) % b.pipes.length })) ∨
    ((∀ p ∈ b.pipes, (mem p).checkWrite = false) ∧
      b.findWritable mem b.pipes.length = some (false, b)) := by
  obtain ⟨⟨found, b'⟩, hf⟩ :=
    Option.isSome_iff_exists.mp (findWritable_isSome b.pipes.length hc)
  obtain ⟨hpipes, hscan⟩ := findWritable_scan hf
  have hb' : b' = { b with current := b'.current } := by
    cases b'
    cases hpipes
    rfl
  cases found with
  | true =>
      left
      obtain ⟨j, u, p, p', hj, hpos, hpassed, hp, ht, -⟩ :=
        hscan.found (Nat.le_refl _)
      rw [hpos] at hp hb'
      refine ⟨j, p, ⟨hj, hp, tryPipe_some ht, ?_⟩, by rw [hf, hb']⟩
      intro i hi p' hp'
      have hn : (b.current + i) % b.pipes.length < b.pipes.length :=
        Nat.mod_lt _ (by omega)
      obtain ⟨x, x', hx, hx', -⟩ := hpassed.tried hn (by
        rw [ringDist_add hc (by omega)]
        exact hi)
      rw [hp', Option.some.injEq] at hx
      exact hx ▸ (tryPipe_none hx').2
  | false =>
      right
      obtain ⟨hpos, -, hall⟩ := hscan.missed_all hc
      rw [hpos] at hb'
      refine ⟨?_, by rw [hf, hb']⟩
      intro p hp
      obtain ⟨q, hq, rfl⟩ := List.getElem_of_mem hp
      obtain ⟨x, x', hx, hx', -⟩ := hall q hq
      rw [List.getElem?_eq_getElem hq, Option.some.injEq] at hx
      exact hx ▸ (tryPipe_none hx').2

/-! ## `write` -/

/-- A message that is not a delimiter goes to the first writable pipe, or
nothing happens. -/
theorem write_cases (h : Heap) (mem : PipeMem)
    (hmsg : msg.isDelimiter = false) (hval : b.Valid) :
    (∃ j p, b.FirstWritable mem j p ∧ b.target mem = some p ∧
      b.write msg h mem = ((mem p).write msg).map fun q =>
        (true, (rawMessageInit msg 0 h).1, h,
          { b with current := (b.current + j + 1) % b.pipes.length },
          Function.update mem p q)) ∨
    ((∀ p ∈ b.pipes, (mem p).checkWrite = false) ∧
      b.write msg h mem = some (false, msg, h, b, mem)) := by
  have hnot : ¬ msg.isDelimiter = true := by simp [hmsg]
  by_cases hnil : b.pipes = []
  · right
    refine ⟨by simp [hnil], ?_⟩
    rw [write, if_neg hnot, if_pos (by simp [hnil])]
  · have hpos : b.pipes.length ≠ 0 := by simpa using hnil
    rw [write, if_neg hnot, if_neg hpos]
    rcases findWritable_cases (hval.lt hpos) with
      ⟨j, p, hfirst, hf⟩ | ⟨hall, hf⟩
    · left
      refine ⟨j, p, hfirst, by simp [target, hf, hfirst.listed], ?_⟩
      have hheap : (rawMessageInit msg 0 h).2 = h := rfl
      simp [hf, hfirst.listed, hheap]
    · right
      exact ⟨hall, by simp [hf]⟩

/-! ## Valid indices -/

theorem Valid.sendTo (hval : b.Valid) (p : Nat) : (b.sendTo p).Valid := by
  have hgrow : RingIndex (b.pipes.length + 1) b.current := RingIndex.grow hval
  show RingIndex (b.pipes ++ [p]).length b.current
  rwa [List.length_append, List.length_singleton]

theorem Valid.releasePipe (hval : b.Valid) (hr : b.releasePipe p = some b') :
    b'.Valid := by
  unfold LoadBalancer.releasePipe at hr
  split at hr
  · next hmem =>
      cases hr
      have hlen : b.pipes.length = (b.pipes.erase p).length + 1 := by
        have := List.length_pos_of_mem hmem
        rw [List.length_erase_of_mem hmem]
        omega
      unfold Valid at hval
      rw [hlen] at hval
      exact hval.shrink
  · cases hr

theorem Valid.write (hval : b.Valid)
    (hw : b.write msg h mem = some (found, msg', h', b', mem')) :
    b'.Valid ∧ b'.pipes = b.pipes := by
  by_cases hmsg : msg.isDelimiter = true
  · rw [LoadBalancer.write, if_pos hmsg] at hw
    obtain ⟨m, -, heq⟩ := Option.map_eq_some_iff.mp hw
    cases heq
    exact ⟨hval, rfl⟩
  · rcases write_cases h mem (by simpa using hmsg) hval with
      ⟨j, p, hfirst, -, heq⟩ | ⟨-, heq⟩
    · rw [heq] at hw
      obtain ⟨q, -, heq⟩ := Option.map_eq_some_iff.mp hw
      cases heq
      have := hfirst.lt
      exact ⟨RingIndex.of_mod _ (show b.pipes.length ≠ 0 by omega), rfl⟩
    · rw [heq] at hw
      cases hw
      exact ⟨hval, rfl⟩

end LoadBalancer

/-- A message that is written is behind those in the main memory, or behind
those in the swap file. -/
theorem Pipe.write_adds {M : Type} {p q : Pipe M} {msg : RawMsg M}
    (h : p.write msg = some q) :
    q.pipe.slots = p.pipe.slots ++ [msg] ∧ q.damMsgs = p.damMsgs ∨
      q.pipe.slots = p.pipe.slots ∧ q.damMsgs = p.damMsgs ++ [msg] := by
  rcases (Pipe.write_cases h).2 with ⟨d, hd, -, -, rfl⟩ | ⟨-, -, rfl⟩
  · exact .inr ⟨rfl, by simp [damMsgs, hd]⟩
  · exact .inl ⟨rfl, rfl⟩

/-! ## Sequences of calls -/

/-- A load balancer with the pipes and the heap it works on. -/
structure BalancerSys where
  lb : LoadBalancer
  mem : PipeMem
  heap : Heap
  served : List (Nat × RawMessage)

/-- The calls, and any change to a pipe that is not the balancer's. -/
inductive BalancerAct where
  | sendTo (p : Nat)
  | write (msg : RawMessage)
  | releasePipe (p : Nat)
  | pipe (p : Nat) (q : Pipe Handle)

namespace BalancerSys

/-- No pipe is attached. -/
def start (mem : PipeMem) (heap : Heap) : BalancerSys :=
  { lb := ⟨[], 0⟩, mem := mem, heap := heap, served := [] }

/-- One call. -/
def step (s : BalancerSys) : BalancerAct → Option BalancerSys
  | .sendTo p => some { s with lb := s.lb.sendTo p }
  | .write msg =>
      (s.lb.write msg s.heap s.mem).map fun (taken, _, h, b, mem) =>
        { lb := b
          mem := mem
          heap := h
          served :=
            if taken && !msg.isDelimiter then
              s.served ++ (s.lb.target s.mem).toList.map fun p => (p, msg)
            else s.served }
  | .releasePipe p => (s.lb.releasePipe p).map fun b => { s with lb := b }
  | .pipe p q => some { s with mem := Function.update s.mem p q }

variable {s s' t : BalancerSys} {a : BalancerAct} {as : List BalancerAct}

theorem valid_step (hval : s.lb.Valid) (hs : s.step a = some s') :
    s'.lb.Valid := by
  cases a with
  | sendTo p =>
      cases hs
      exact hval.sendTo p
  | write msg =>
      obtain ⟨⟨taken, msg', h, b, mem⟩, hw, rfl⟩ :=
        Option.map_eq_some_iff.mp hs
      exact (hval.write hw).1
  | releasePipe p =>
      obtain ⟨b, hr, rfl⟩ := Option.map_eq_some_iff.mp hs
      exact hval.releasePipe hr
  | pipe p q =>
      cases hs
      exact hval

theorem valid_run {mem : PipeMem} {heap : Heap}
    (hrun : Run step Any (start mem heap) as s) : s.lb.Valid :=
  hrun.invariant (fun _ _ _ hval _ hs => valid_step hval hs)
    (.inr ⟨rfl, rfl⟩)

/-! ## Equal shares -/

/-- The list of pipes stays as it is, and every pipe stays writable. -/
def Steady (s : BalancerSys) : BalancerAct → Prop
  | .write msg =>
      msg.isDelimiter = false ∧ ∀ p ∈ s.lb.pipes, (s.mem p).checkWrite = true
  | .pipe _ _ => True
  | _ => False

instance (s : BalancerSys) (a : BalancerAct) : Decidable (Steady s a) :=
  match a with
  | .write msg => inferInstanceAs (Decidable (msg.isDelimiter = false ∧
      ∀ p ∈ s.lb.pipes, (s.mem p).checkWrite = true))
  | .pipe _ _ => .isTrue trivial
  | .sendTo _ => .isFalse id
  | .releasePipe _ => .isFalse id

/-- While every pipe is writable, the pipe at `current` takes the message. -/
theorem Steady.write {msg : RawMessage} (hok : Steady s (.write msg))
    (hval : s.lb.Valid) (hs : s.step (.write msg) = some s') :
    (s.lb.pipes = [] ∧ s'.lb = s.lb ∧ s'.served = s.served) ∨
      ∃ p, s.lb.pipes[s.lb.current]? = some p ∧
        s'.lb = { s.lb with
          current := (s.lb.current + 1) % s.lb.pipes.length } ∧
        s'.served = s.served ++ [(p, msg)] := by
  obtain ⟨hmsg, hall⟩ := hok
  obtain ⟨⟨taken, msg', h, b, mem⟩, hw, rfl⟩ := Option.map_eq_some_iff.mp hs
  rcases LoadBalancer.write_cases s.heap s.mem hmsg hval with
    ⟨j, p, hfirst, htarget, heq⟩ | ⟨hnone, heq⟩
  · right
    rw [heq] at hw
    obtain ⟨q, -, hw⟩ := Option.map_eq_some_iff.mp hw
    cases hw
    have hc : s.lb.current < s.lb.pipes.length :=
      hval.lt (by have := hfirst.lt; omega)
    have hj : j = 0 := by
      by_contra hj
      have hfail := hfirst.first 0 (by omega) s.lb.pipes[s.lb.current] (by
        rw [Nat.add_zero, Nat.mod_eq_of_lt hc, List.getElem?_eq_getElem hc])
      rw [hall _ (List.getElem_mem hc)] at hfail
      cases hfail
    subst hj
    have hlisted := hfirst.listed
    rw [Nat.add_zero, Nat.mod_eq_of_lt hc] at hlisted
    exact ⟨p, hlisted, rfl, by simp [htarget, hmsg]⟩
  · left
    rw [heq] at hw
    cases hw
    refine ⟨?_, rfl, rfl⟩
    rw [List.eq_nil_iff_forall_not_mem]
    intro p hp
    have hfail := hnone p hp
    rw [hall p hp] at hfail
    cases hfail

/-- Since `s`, `m` messages have been taken by the pipes in turn. -/
def Turned (s t : BalancerSys) : Prop :=
  ∃ m got,
    t.lb.pipes = s.lb.pipes ∧
    (s.lb.pipes ≠ [] →
      t.lb.current = (s.lb.current + m) % s.lb.pipes.length) ∧
    t.served = s.served ++ got ∧ got.length = m ∧
    got.map Prod.fst = (rotation s.lb.pipes.length s.lb.current m).filterMap
      fun i => s.lb.pipes[i]?

theorem Turned.refl (hval : s.lb.Valid) : Turned s s := by
  refine ⟨0, [], rfl, fun hne => ?_, by simp, rfl, rfl⟩
  rw [Nat.add_zero, Nat.mod_eq_of_lt (hval.lt (by simpa using hne))]

theorem Turned.step {u : BalancerSys} (h : Turned s t) (hval : t.lb.Valid)
    (hok : Steady t a) (hs : t.step a = some u) : Turned s u := by
  obtain ⟨m, got, hpipes, hcur, hserved, hlen, hmap⟩ := h
  cases a with
  | sendTo p => exact hok.elim
  | releasePipe p => exact hok.elim
  | pipe p q =>
      cases hs
      exact ⟨m, got, hpipes, hcur, hserved, hlen, hmap⟩
  | write msg =>
      rcases hok.write hval hs with ⟨-, hlb, hsame⟩ | ⟨p, hp, hlb, hmore⟩
      · exact ⟨m, got, by rw [hlb, hpipes], by rwa [hlb],
          by rw [hsame, hserved], hlen, hmap⟩
      · have hne : s.lb.pipes ≠ [] := by
          intro hnil
          rw [hpipes, hnil] at hp
          cases hp
        refine ⟨m + 1, got ++ [(p, msg)], by rw [hlb, hpipes], ?_,
          by rw [hmore, hserved, List.append_assoc], by simp [hlen], ?_⟩
        · intro _
          rw [hlb, hpipes, hcur hne]
          simp [Nat.add_assoc]
        · rw [hpipes, hcur hne] at hp
          simp [rotation_succ, hmap, hp]

/-- The messages of whole turns are shared out equally. -/
theorem Turned.count (h : Turned s t) {k : Nat}
    (hlen : t.served.length = s.served.length + k * s.lb.pipes.length) :
    ∃ got, t.served = s.served ++ got ∧
      ∀ p, (got.map Prod.fst).count p = k * s.lb.pipes.count p := by
  obtain ⟨m, got, -, -, hserved, hgot, hmap⟩ := h
  refine ⟨got, hserved, fun p => ?_⟩
  have hm : m = k * s.lb.pipes.length := by
    rw [hserved, List.length_append] at hlen
    omega
  subst hm
  rw [hmap, (rotation_turns_cells s.lb.pipes s.lb.current k).count_eq,
    List.count_flatten, List.map_replicate, List.sum_replicate_nat]

end BalancerSys

open BalancerSys in
/-- Load balancing is exact round robin.  After every sequence of calls
`current` is a valid index when there is a pipe.  A `write` of a message
returns whenever the pipes' own `write` does; with true, exactly one pipe has
gained the message, the first writable one from `current` on, and `current`
is just past it; with false, nothing has changed and no pipe was writable.
While the same pipes stay writable, `k` messages for each place in the list
are shared out so that every place gets exactly `k`. -/
theorem load_balancing_round_robin {mem : PipeMem} {heap : Heap}
    {as : List BalancerAct} {s : BalancerSys}
    (hrun : Run BalancerSys.step Any (.start mem heap) as s) :
    (s.lb.pipes ≠ [] → s.lb.current < s.lb.pipes.length) ∧
    (∀ msg : RawMessage, msg.isDelimiter = false →
      (∀ msg' h b mem',
        s.lb.write msg s.heap s.mem = some (true, msg', h, b, mem') →
        ∃ j p q, s.lb.FirstWritable s.mem j p ∧
          (q.pipe.slots = (s.mem p).pipe.slots ++ [msg] ∧
              q.damMsgs = (s.mem p).damMsgs ∨
            q.pipe.slots = (s.mem p).pipe.slots ∧
              q.damMsgs = (s.mem p).damMsgs ++ [msg]) ∧
          mem' = Function.update s.mem p q ∧
          b = { s.lb with
            current := (s.lb.current + j + 1) % s.lb.pipes.length }) ∧
      (∀ msg' h b mem',
        s.lb.write msg s.heap s.mem = some (false, msg', h, b, mem') →
        (∀ p ∈ s.lb.pipes, (s.mem p).checkWrite = false) ∧
          msg' = msg ∧ h = s.heap ∧ b = s.lb ∧ mem' = s.mem) ∧
      ((∀ p ∈ s.lb.pipes, (s.mem p).checkWrite = true →
          ((s.mem p).write msg).isSome = true) →
        (s.lb.write msg s.heap s.mem).isSome = true)) ∧
    (∀ k bs t, Run BalancerSys.step Steady s bs t →
      t.served.length = s.served.length + k * s.lb.pipes.length →
      ∃ got, t.served = s.served ++ got ∧
        (∀ p, (got.map Prod.fst).count p = k * s.lb.pipes.count p) ∧
        (s.lb.pipes.Nodup → ∀ p ∈ s.lb.pipes,
          (got.map Prod.fst).count p = k)) := by
  have hval := valid_run hrun
  refine ⟨fun hne => hval.lt (by simpa using hne), ?_, ?_⟩
  · intro msg hmsg
    rcases LoadBalancer.write_cases s.heap s.mem hmsg hval with
      ⟨j, p, hfirst, -, heq⟩ | ⟨hnone, heq⟩
    · refine ⟨?_, ?_, ?_⟩
      · intro msg' h b mem' hw
        rw [heq] at hw
        obtain ⟨q, hq, hw⟩ := Option.map_eq_some_iff.mp hw
        cases hw
        exact ⟨j, p, q, hfirst, Pipe.write_adds hq, rfl, rfl⟩
      · intro msg' h b mem' hw
        rw [heq] at hw
        obtain ⟨q, -, hw⟩ := Option.map_eq_some_iff.mp hw
        cases hw
      · intro hall
        rw [heq, Option.isSome_map]
        exact hall p (List.mem_of_getElem? hfirst.listed) hfirst.writable
    · refine ⟨?_, ?_, ?_⟩
      · intro msg' h b mem' hw
        rw [heq] at hw
        cases hw
      · intro msg' h b mem' hw
        rw [heq] at hw
        cases hw
        exact ⟨hnone, rfl, rfl, rfl, rfl⟩
      · intro _
        rw [heq]
        rfl
  · intro k bs t hsteady hlen
    have hturned : Turned s t ∧ t.lb.Valid :=
      hsteady.invariant (I := fun u => Turned s u ∧ u.lb.Valid)
        (fun _ _ _ h hok hs => ⟨h.1.step h.2 hok hs, valid_step h.2 hs⟩)
        ⟨.refl hval, hval⟩
    obtain ⟨got, hserved, hcount⟩ := hturned.1.count hlen
    refine ⟨got, hserved, hcount, ?_⟩
    intro hnodup p hp
    rw [hcount, List.count_eq_one_of_mem hnodup hp, Nat.mul_one]

/-- Of three pipes the first is released; the other two then get two messages
each out of four. -/
theorem load_balancing_round_robin_two_pipes :
    ∃ s t got,
      Run BalancerSys.step Any
        (.start (fun _ => Pipe.create ⟨5, 2, 0⟩ ⟨0, 0, 0⟩ fun _ _ => false)
          ⟨[], false⟩)
        [.sendTo 7, .sendTo 9, .sendTo 4,
          .write (.data ⟨.vsm, false, 0, []⟩), .releasePipe 7] s ∧
      Run BalancerSys.step BalancerSys.Steady s
        (List.replicate 4 (.write (.data ⟨.vsm, false, 0, []⟩))) t ∧
      t.served = s.served ++ got ∧
      (got.map Prod.fst).count 9 = 2 ∧ (got.map Prod.fst).count 4 = 2 := by
  have hexec : (exec BalancerSys.step Any
      (.start (fun _ => Pipe.create ⟨5, 2, 0⟩ ⟨0, 0, 0⟩ fun _ _ => false)
        ⟨[], false⟩)
      [.sendTo 7, .sendTo 9, .sendTo 4,
        .write (.data ⟨.vsm, false, 0, []⟩), .releasePipe 7]).any
      (fun s => decide (s.lb.pipes = [9, 4] ∧
        (exec BalancerSys.step BalancerSys.Steady s
          (List.replicate 4 (.write (.data ⟨.vsm, false, 0, []⟩)))).any
          (fun t => decide (t.served.length = s.served.length + 2 * 2)) =
            true)) = true := by
    decide +kernel
  obtain ⟨s, hrun, hpipes, hs⟩ := Run.of_exec_any hexec
  obtain ⟨t, hsteady, hlen⟩ := Run.of_exec_any hs
  obtain ⟨-, -, hshare⟩ := load_balancing_round_robin hrun
  obtain ⟨got, hserved, hcount, -⟩ := hshare 2 _ t hsteady (by
    rw [hpipes]
    exact hlen)
  rw [hpipes] at hcount
  exact ⟨s, t, got, hrun, hsteady, hserved, hcount 9, hcount 4⟩

end ZeroMQ
