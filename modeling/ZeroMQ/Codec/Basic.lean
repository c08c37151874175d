import Mathlib.Algebra.Ring.Nat

/-!
# The state machines of `encoder_t` and `decoder_t`

`encoder_t` (`libzmq/zmq/encoder.hpp`) fills buffers and `decoder_t`
(`libzmq/zmq/decoder.hpp`) consumes them.  Both are templates over a derived
class that supplies the actions of a state machine; an action announces the
bytes to send, or the number of bytes to receive, with `next_step`.

The models are generic in the same way.  The loops of the templates end only if
the derived class makes progress: it must not announce empty steps for ever.
An `EncoderFsm` or `DecoderFsm` carries the proof of this, so that the loops
are total functions.

## Main results

* `Encoder.readLoop_invariant`, `Decoder.write_invariant` — a property of a
  codec and the bytes that have passed through it holds of every call once the
  copy and the actions keep it.
* `Encoder.readLoop_alike` — encoders whose members are related send the same
  bytes, if the actions keep the relation.
* `Encoder.readLoop_short` — `read` leaves room in the buffer only when an
  action has returned false.
* `Decoder.write_cases` — `write` consumes its buffer unless an action returns
  false.
-/

namespace ZeroMQ

/-! ## `encoder_t` -/

/-- The arguments of `encoder_t::next_step`: the bytes to send, the action to
take once they are sent, and whether they begin a message. -/
structure EncoderStep (St : Type) where
  data : List UInt8
  next : St
  beginning : Bool
  deriving DecidableEq, Repr

/-- The actions of a class derived from `encoder_t`, whose own members are in
`D`.  An action returns false (`none`) or calls `next_step`.  The rank bounds
the number of empty steps in a row. -/
structure EncoderFsm (St D : Type) where
  action : St → D → Option (EncoderStep St) × D
  rank : St → Nat
  bound : Nat
  rank_lt : ∀ st, rank st < bound
  progress : ∀ {st d step d'}, action st d = (some step, d') →
    step.data = [] → rank step.next < rank st

/-- The members of `encoder_t` (`data` is what `write_pos` and `to_write`
delimit) and of the class derived from it. -/
structure Encoder (St D : Type) where
  data : List UInt8
  next : St
  beginning : Bool
  derived : D
  deriving DecidableEq, Repr

namespace Encoder

variable {St D : Type} {fsm : EncoderFsm St D} {size : Nat} {e : Encoder St D}
  {out : List UInt8}

/-- `next_step`. -/
def nextStep (step : EncoderStep St) (derived : D) : Encoder St D :=
  { data := step.data, next := step.next, beginning := step.beginning,
    derived := derived }

/-- The first beginning of a message in the buffer is reported as its offset. -/
def mark (e : Encoder St D) (pos : Nat) (offset : Option Nat) :
    Encoder St D × Option Nat :=
  if e.beginning = true ∧ offset = none then
    ({ e with beginning := false }, some pos)
  else (e, offset)

@[simp] theorem mark_data (e : Encoder St D) (pos : Nat)
    (offset : Option Nat) : (e.mark pos offset).1.data = e.data := by
  unfold mark
  split <;> rfl

@[simp] theorem mark_next (e : Encoder St D) (pos : Nat)
    (offset : Option Nat) : (e.mark pos offset).1.next = e.next := by
  unfold mark
  split <;> rfl

@[simp] theorem mark_derived (e : Encoder St D) (pos : Nat)
    (offset : Option Nat) : (e.mark pos offset).1.derived = e.derived := by
  unfold mark
  split <;> rfl

/-- What is left for `read` to do: the room in the buffer, and the empty steps
that may come before the next byte. -/
def work (fsm : EncoderFsm St D) (size : Nat) (e : Encoder St D)
    (out : List UInt8) : Nat :=
  (fsm.bound + 1) * (size - out.length) +
    if e.data = [] then fsm.rank e.next + 1 else 0

theorem work_step {step : EncoderStep St} {derived : D} (hdata : e.data = [])
    (hact : fsm.action e.next e.derived = (some step, derived)) (pos : Nat)
    (offset : Option Nat) :
    work fsm size (mark (nextStep step derived) pos offset).1 out <
      work fsm size e out := by
  simp only [work, mark_data, mark_next, nextStep, if_pos hdata]
  split
  · next hempty =>
      have := fsm.progress hact hempty
      omega
  · omega

theorem work_copy (hsize : out.length < size) (hdata : e.data ≠ []) :
    work fsm size
        { e with data := e.data.drop (min e.data.length (size - out.length)) }
        (out ++ e.data.take (min e.data.length (size - out.length))) <
      work fsm size e out := by
  have hpos : 0 < e.data.length := List.length_pos_iff.mpr hdata
  have hrank := fsm.rank_lt e.next
  simp only [work, List.length_append, List.length_take, if_neg hdata]
  generalize hcopy : min (min e.data.length (size - out.length))
    e.data.length = n
  have hlt : size - (out.length + n) + 1 ≤ size - out.length := by omega
  have hmul := Nat.mul_le_mul_left (fsm.bound + 1) hlt
  rw [Nat.mul_add, Nat.mul_one] at hmul
  split <;> omega

/-- The loop of `read`: `out` is what has been put into the buffer so far and
`offset` the first beginning of a message in it, `none` standing for -1. -/
def readLoop (fsm : EncoderFsm St D) (size : Nat) (e : Encoder St D)
    (out : List UInt8) (offset : Option Nat) :
    Encoder St D × List UInt8 × Option Nat :=
  if out.length < size then
    if e.data = [] then
      match _ : fsm.action e.next e.derived with
      | (none, derived) =>
          let marked := mark { e with derived := derived } out.length offset
          (marked.1, out, marked.2)
      | (some step, derived) =>
          let marked := mark (nextStep step derived) out.length offset
          readLoop fsm size marked.1 out marked.2
    else
      let toCopy := min e.data.length (size - out.length)
      readLoop fsm size { e with data := e.data.drop toCopy }
        (out ++ e.data.take toCopy) offset
  else (e, out, offset)
termination_by work fsm size e out
decreasing_by
  · exact work_step (by assumption) (by assumption) _ _
  · exact work_copy (by assumption) (by assumption)

/-- `read`: fill a buffer of `size` bytes. -/
def read (fsm : EncoderFsm St D) (e : Encoder St D) (size : Nat) :
    Encoder St D × List UInt8 × Option Nat :=
  readLoop fsm size e [] none

/-- The invariant rule of `read`: a property of the encoder and the bytes that
have left it. -/
theorem readLoop_invariant {I : Encoder St D → List UInt8 → Prop}
    (hcopy : ∀ e out n, I e out →
      I { e with data := e.data.drop n } (out ++ e.data.take n))
    (hmark : ∀ e out b, I e out → I { e with beginning := b } out)
    (hstep : ∀ e out step derived, I e out → e.data = [] →
      fsm.action e.next e.derived = (some step, derived) →
      I (nextStep step derived) out)
    (hstop : ∀ e out derived, I e out → e.data = [] →
      fsm.action e.next e.derived = (none, derived) →
      I { e with derived := derived } out) (e : Encoder St D) (out : List UInt8)
    (offset : Option Nat) (h : I e out) :
    I (readLoop fsm size e out offset).1
      (readLoop fsm size e out offset).2.1 := by
  have hmark' : ∀ e out pos offset, I e out → I (mark e pos offset).1 out := by
    intro e out pos offset he
    unfold mark
    split
    · exact hmark e out false he
    · exact he
  fun_induction readLoop fsm size e out offset with
  | case1 e out offset hsize hdata derived hact marked =>
      exact hmark' _ _ _ _ (hstop e out derived h hdata hact)
  | case2 e out offset hsize hdata step derived hact marked ih =>
      exact ih (hmark' _ _ _ _ (hstep e out step derived h hdata hact))
  | case3 e out offset hsize hdata toCopy ih => exact ih (hcopy e out _ h)
  | case4 e out offset hsize => exact h

theorem readLoop_length_le (e : Encoder St D) (out : List UInt8)
    (offset : Option Nat) (h : out.length ≤ size) :
    (readLoop fsm size e out offset).2.1.length ≤ size := by
  fun_induction readLoop fsm size e out offset with
  | case1 e out offset hsize hdata derived hact marked => exact h
  | case2 e out offset hsize hdata step derived hact marked ih => exact ih h
  | case3 e out offset hsize hdata toCopy ih =>
      apply ih
      simp only [List.length_append, List.length_take, toCopy]
      omega
  | case4 e out offset hsize => exact h

/-- `read` leaves room in the buffer only when everything announced has been
copied and an action has returned false. -/
theorem readLoop_short (e : Encoder St D) (out : List UInt8)
    (offset : Option Nat)
    (h : (readLoop fsm size e out offset).2.1.length < size) :
    (readLoop fsm size e out offset).1.data = [] ∧
      ∃ d, fsm.action (readLoop fsm size e out offset).1.next d =
        (none, (readLoop fsm size e out offset).1.derived) := by
  fun_induction readLoop fsm size e out offset with
  | case1 e out offset hsize hdata derived hact marked =>
      simp only [marked, mark_data, mark_next, mark_derived]
      exact ⟨hdata, e.derived, hact⟩
  | case2 e out offset hsize hdata step derived hact marked ih => exact ih h
  | case3 e out offset hsize hdata toCopy ih => exact ih h
  | case4 e out offset hsize => exact (hsize h).elim

theorem read_zero (fsm : EncoderFsm St D) (e : Encoder St D) :
    read fsm e 0 = (e, [], none) := by
  rw [read, readLoop, if_neg (by simp)]

theorem readLoop_grows (offset : Option Nat) (hdata : e.data ≠ [])
    (hsize : out.length < size) :
    out.length < (readLoop fsm size e out offset).2.1.length := by
  have hpos : 0 < e.data.length := List.length_pos_iff.mpr hdata
  rw [readLoop, if_pos hsize, if_neg hdata]
  apply readLoop_invariant (I := fun _ sent => out.length < sent.length)
  · intro e sent n hsent
    rw [List.length_append]
    omega
  · exact fun _ _ _ hsent => hsent
  · exact fun _ _ _ _ hsent _ _ => hsent
  · exact fun _ _ _ hsent _ _ => hsent
  · rw [List.length_append, List.length_take]
    omega

theorem read_ne_nil (hdata : e.data ≠ []) (hsize : 0 < size) :
    (read fsm e size).2.1 ≠ [] := by
  have hgrows : ([] : List UInt8).length <
      (readLoop fsm size e [] none).2.1.length :=
    readLoop_grows none hdata hsize
  exact List.length_pos_iff.mp hgrows

/-- Buffers of the given sizes are filled one after the other. -/
def reads (fsm : EncoderFsm St D) (e : Encoder St D) :
    List Nat → Encoder St D × List UInt8
  | [] => (e, [])
  | size :: sizes =>
      let first := read fsm e size
      let rest := reads fsm first.1 sizes
      (rest.1, first.2.1 ++ rest.2)

section Meaning

/- The bytes an encoder has still to send, as a function of its state.  An
action sends what comes first; an action that returns false has nothing to
send. -/
variable {P : St → D → Prop} {rest : St → D → List UInt8}

/-- Everything an encoder has still to send. -/
def unsent (rest : St → D → List UInt8) (e : Encoder St D) : List UInt8 :=
  e.data ++ rest e.next e.derived

variable
  (hstep : ∀ {st d step d'}, P st d → fsm.action st d = (some step, d') →
    P step.next d' ∧ rest st d = step.data ++ rest step.next d')
  (hstop : ∀ {st d d'}, P st d → fsm.action st d = (none, d') →
    P st d' ∧ rest st d = [] ∧ rest st d' = [])
include hstep hstop

theorem readLoop_eq (e : Encoder St D) (out : List UInt8) (offset : Option Nat)
    (hP : P e.next e.derived) (hle : out.length ≤ size) :
    P (readLoop fsm size e out offset).1.next
        (readLoop fsm size e out offset).1.derived ∧
      (readLoop fsm size e out offset).2.1 =
        (out ++ unsent rest e).take size ∧
      unsent rest (readLoop fsm size e out offset).1 =
        (out ++ unsent rest e).drop size := by
  fun_induction readLoop fsm size e out offset with
  | case1 e out offset hsize hdata derived hact marked =>
      obtain ⟨hP', hrest, hrest'⟩ := hstop hP hact
      simp only [marked, unsent, mark_data, mark_next, mark_derived, hdata,
        hrest, hrest', List.append_nil]
      exact ⟨hP', (List.take_of_length_le hle).symm,
        (List.drop_eq_nil_of_le hle).symm⟩
  | case2 e out offset hsize hdata step derived hact marked ih =>
      obtain ⟨hP', hrest⟩ := hstep hP hact
      have hsame : unsent rest marked.1 = unsent rest e := by
        simp only [marked, unsent, mark_data, mark_next, mark_derived,
          nextStep, hdata, hrest, List.nil_append]
      rw [hsame] at ih
      refine ih ?_ hle
      simp only [marked, mark_next, mark_derived]
      exact hP'
  | case3 e out offset hsize hdata toCopy ih =>
      have hsame : out ++ e.data.take toCopy ++
          unsent rest { e with data := e.data.drop toCopy } =
            out ++ unsent rest e := by
        simp only [unsent, List.append_assoc]
        rw [← List.append_assoc (e.data.take toCopy), List.take_append_drop]
      rw [hsame] at ih
      refine ih hP ?_
      simp only [List.length_append, List.length_take, toCopy]
      omega
  | case4 e out offset hsize =>
      have hlen : out.length = size := by omega
      exact ⟨hP, (List.take_left' hlen).symm, (List.drop_left' hlen).symm⟩

/-- The output does not depend on how the buffers are cut. -/
theorem reads_eq (e : Encoder St D) (sizes : List Nat)
    (hP : P e.next e.derived) :
    (reads fsm e sizes).2 = (unsent rest e).take sizes.sum := by
  induction sizes generalizing e with
  | nil => simp [reads]
  | cons size sizes ih =>
      obtain ⟨hP', hout, hunsent⟩ :=
        readLoop_eq hstep hstop e [] none hP (Nat.zero_le size)
      simp only [reads, read, ih _ hP', hout, hunsent, List.nil_append,
        List.sum_cons, List.take_add]

end Meaning

section Alike

/-- Two encoders have the same bytes to send and the same action to take, and
the members of their derived classes are related by `R`. -/
structure Alike (R : St → D → D → Prop) (e e' : Encoder St D) : Prop where
  data : e.data = e'.data
  next : e.next = e'.next
  beginning : e.beginning = e'.beginning
  derived : R e.next e.derived e'.derived

variable {R : St → D → D → Prop}

theorem Alike.mark {e e' : Encoder St D} (h : Alike R e e') (pos : Nat)
    (offset : Option Nat) :
    Alike R (e.mark pos offset).1 (e'.mark pos offset).1 ∧
      (e.mark pos offset).2 = (e'.mark pos offset).2 := by
  unfold Encoder.mark
  rw [h.beginning]
  split
  · exact ⟨⟨h.data, h.next, rfl, h.derived⟩, rfl⟩
  · exact ⟨h, rfl⟩

/-- What an action does to related members: it announces the same, and they are
related again. -/
def Respects (fsm : EncoderFsm St D) (R : St → D → D → Prop) : Prop :=
  ∀ {st d d'}, R st d d' →
    (fsm.action st d).1 = (fsm.action st d').1 ∧
      R ((fsm.action st d).1.elim st EncoderStep.next) (fsm.action st d).2
        (fsm.action st d').2

/-- Encoders that are alike send the same bytes. -/
theorem readLoop_alike (hR : Respects fsm R) (e e' : Encoder St D)
    (out : List UInt8) (offset : Option Nat) (h : Alike R e e') :
    Alike R (readLoop fsm size e out offset).1
        (readLoop fsm size e' out offset).1 ∧
      (readLoop fsm size e out offset).2 =
        (readLoop fsm size e' out offset).2 := by
  fun_induction readLoop fsm size e out offset generalizing e' with
  | case1 e out offset hsize hdata derived hact marked =>
      have hact' := hR h.derived
      rw [hact, h.next] at hact'
      rw [readLoop, if_pos hsize, if_pos (h.data ▸ hdata)]
      split
      · next derived' hnone =>
          rw [hnone] at hact'
          have halike : Alike R { e with derived := derived }
              { e' with derived := derived' } :=
            ⟨h.data, h.next, h.beginning, h.next ▸ hact'.2⟩
          obtain ⟨hmark, hoffset⟩ := halike.mark out.length offset
          exact ⟨hmark, Prod.ext rfl hoffset⟩
      · next step' derived' hsome =>
          rw [hsome] at hact'
          cases hact'.1
  | case2 e out offset hsize hdata step derived hact marked ih =>
      have hact' := hR h.derived
      rw [hact, h.next] at hact'
      rw [readLoop.eq_def fsm size e', if_pos hsize,
        if_pos (h.data ▸ hdata)]
      split
      · next derived' hnone =>
          rw [hnone] at hact'
          cases hact'.1
      · next step' derived' hsome =>
          rw [hsome] at hact'
          obtain rfl : step = step' := Option.some.inj hact'.1
          have halike : Alike R (nextStep step derived)
              (nextStep step derived') := ⟨rfl, rfl, rfl, hact'.2⟩
          obtain ⟨hmark, hoffset⟩ := halike.mark out.length offset
          dsimp only
          rw [← hoffset]
          exact ih _ hmark
  | case3 e out offset hsize hdata toCopy ih =>
      rw [readLoop.eq_def fsm size e', if_pos hsize,
        if_neg (h.data ▸ hdata)]
      have hcopy : min e'.data.length (size - out.length) = toCopy := by
        rw [← h.data]
      dsimp only
      rw [hcopy, ← h.data]
      exact ih _ ⟨rfl, h.next, h.beginning, h.derived⟩
  | case4 e out offset hsize =>
      rw [readLoop, if_neg hsize]
      exact ⟨h, rfl⟩

theorem read_alike (hR : Respects fsm R) {e e' : Encoder St D} (size : Nat)
    (h : Alike R e e') :
    Alike R (read fsm e size).1 (read fsm e' size).1 ∧
      (read fsm e size).2 = (read fsm e' size).2 :=
  readLoop_alike hR e e' [] none h

end Alike

end Encoder

/-! ## `decoder_t` -/

/-- The actions of a class derived from `decoder_t`, whose own members are in
`D`.  An action gets the bytes that were read for it; it returns false (`none`)
or calls `next_step` with the number of bytes to read next.  The rank bounds
the number of empty steps in a row. -/
structure DecoderFsm (St D : Type) where
  action : St → List UInt8 → D → Option (Nat × St) × D
  rank : St → Nat
  progress : ∀ {st buf d st' d'}, action st buf d = (some (0, st'), d') →
    rank st' < rank st

/-- The members of `decoder_t` (`buf` holds the bytes before `read_ptr`) and of
the class derived from it. -/
structure Decoder (St D : Type) where
  buf : List UInt8
  toRead : Nat
  next : St
  derived : D
  deriving DecidableEq, Repr

namespace Decoder

variable {St D : Type} {fsm : DecoderFsm St D} {d d' : Decoder St D}
  {data : List UInt8} {derived : D} {toRead : Nat} {next : St}

/-- `next_step`: a new buffer for `toRead` bytes. -/
def nextStep (toRead : Nat) (next : St) (derived : D) : Decoder St D :=
  { buf := [], toRead := toRead, next := next, derived := derived }

/-- The bytes go to the buffer. -/
def copy (d : Decoder St D) (bytes : List UInt8) : Decoder St D :=
  { d with buf := d.buf ++ bytes, toRead := d.toRead - bytes.length }

/-- The empty steps that may come before the decoder wants a byte. -/
def emptySteps (fsm : DecoderFsm St D) (d : Decoder St D) : Nat :=
  if d.toRead = 0 then fsm.rank d.next + 1 else 0

theorem emptySteps_lt (hzero : d.toRead = 0)
    (hact : fsm.action d.next d.buf d.derived =
      (some (toRead, next), derived)) :
    emptySteps fsm (nextStep toRead next derived) < emptySteps fsm d := by
  unfold emptySteps
  rw [if_pos hzero]
  split
  · next hempty =>
      have hempty : toRead = 0 := hempty
      subst hempty
      exact Nat.succ_lt_succ (fsm.progress hact)
  · exact Nat.succ_pos _

/-- The inner loop of `write`: take actions until one of them wants bytes.  The
flag is false when one returns false. -/
def settle (fsm : DecoderFsm St D) (d : Decoder St D) : Bool × Decoder St D :=
  if d.toRead = 0 then
    match _ : fsm.action d.next d.buf d.derived with
    | (none, derived) => (false, { d with derived := derived })
    | (some (toRead, next), derived) =>
        settle fsm (nextStep toRead next derived)
  else (true, d)
termination_by emptySteps fsm d
decreasing_by exact emptySteps_lt (by assumption) (by assumption)

theorem settle_toRead (fsm : DecoderFsm St D) (d : Decoder St D)
    (h : (settle fsm d).1 = true) : (settle fsm d).2.toRead ≠ 0 := by
  fun_induction settle fsm d with
  | case1 d hzero derived hact => cases h
  | case2 d hzero toRead next derived hact ih => exact ih h
  | case3 d hzero => exact hzero

/-- `write`: consume the buffer; the result has the number of bytes parsed. -/
def write (fsm : DecoderFsm St D) (d : Decoder St D) (data : List UInt8) :
    Decoder St D × Nat :=
  let toCopy := min d.toRead data.length
  match _ : settle fsm (d.copy (data.take toCopy)) with
  | (false, d') => (d', toCopy)
  | (true, d') =>
      if data.length = toCopy then (d', toCopy)
      else
        let rest := write fsm d' (data.drop toCopy)
        (rest.1, toCopy + rest.2)
termination_by data.length + if d.toRead = 0 then 1 else 0
decreasing_by
  next hsettle hlen =>
    have hread : d'.toRead ≠ 0 := by
      have h := settle_toRead fsm (d.copy (data.take toCopy))
      rw [hsettle] at h
      exact h rfl
    simp only [List.length_drop, if_neg hread]
    split <;> omega

/-- The rule of the inner loop: it keeps `I` until the decoder wants bytes, or
an action that returns false makes `J` of it. -/
theorem settle_rule {I J : Decoder St D → Prop}
    (hstep : ∀ d toRead next derived, I d → d.toRead = 0 →
      fsm.action d.next d.buf d.derived = (some (toRead, next), derived) →
      I (nextStep toRead next derived))
    (hstop : ∀ d derived, I d → d.toRead = 0 →
      fsm.action d.next d.buf d.derived = (none, derived) →
      J { d with derived := derived }) (d : Decoder St D) (h : I d) :
    if (settle fsm d).1 then I (settle fsm d).2 else J (settle fsm d).2 := by
  fun_induction settle fsm d with
  | case1 d hzero derived hact => exact hstop d derived h hzero hact
  | case2 d hzero toRead next derived hact ih =>
      exact ih (hstep d toRead next derived h hzero hact)
  | case3 d hzero => exact h

section Write

variable {I J : Decoder St D → List UInt8 → Prop}
  (hcopy : ∀ d seen bytes, I d seen → bytes.length ≤ d.toRead →
    I (d.copy bytes) (seen ++ bytes))
  (hstep : ∀ d seen toRead next derived, I d seen → d.toRead = 0 →
    fsm.action d.next d.buf d.derived = (some (toRead, next), derived) →
    I (nextStep toRead next derived) seen)

include hcopy hstep

/-- The rule of `write`, for properties of the decoder and the bytes it has
consumed: `I` is kept until the buffer is used up, or an action that returns
false makes `J` of it. -/
theorem write_rule
    (hstop : ∀ d seen derived, I d seen → d.toRead = 0 →
      fsm.action d.next d.buf d.derived = (none, derived) →
      J { d with derived := derived } seen)
    (d : Decoder St D) (data seen : List UInt8) (h : I d seen) :
    (I (write fsm d data).1 (seen ++ data.take (write fsm d data).2) ∧
        (write fsm d data).2 = data.length ∧
        (write fsm d data).1.toRead ≠ 0) ∨
      J (write fsm d data).1 (seen ++ data.take (write fsm d data).2) := by
  -- One round of the outer loop.
  have hround : ∀ d seen bytes, I d seen → bytes.length ≤ d.toRead →
      if (settle fsm (d.copy bytes)).1 then
        I (settle fsm (d.copy bytes)).2 (seen ++ bytes)
      else J (settle fsm (d.copy bytes)).2 (seen ++ bytes) := by
    intro d seen bytes hd hle
    apply settle_rule (I := fun d => I d (seen ++ bytes))
      (J := fun d => J d (seen ++ bytes))
    · exact fun d toRead next derived => hstep d _ toRead next derived
    · exact fun d derived => hstop d _ derived
    · exact hcopy d seen bytes hd hle
  have htaken : ∀ (d : Decoder St D) (data : List UInt8),
      (data.take (min d.toRead data.length)).length ≤ d.toRead := by
    intro d data
    rw [List.length_take]
    omega
  fun_induction write fsm d data generalizing seen with
  | case1 d data toCopy d' hsettle =>
      have hI := hround d seen (data.take toCopy) h (htaken d data)
      rw [hsettle] at hI
      exact .inr hI
  | case2 d data toCopy d' hsettle hlen =>
      have hI := hround d seen (data.take toCopy) h (htaken d data)
      have hread := settle_toRead fsm (d.copy (data.take toCopy))
      rw [hsettle] at hI hread
      exact .inl ⟨hI, hlen.symm, hread rfl⟩
  | case3 d data toCopy d' hsettle hlen rest ih =>
      have hI := hround d seen (data.take toCopy) h (htaken d data)
      have hle : toCopy ≤ data.length := Nat.min_le_right _ _
      rw [hsettle] at hI
      rw [List.take_add, ← List.append_assoc]
      rcases ih _ hI with ⟨hI', hall, hread⟩ | hJ
      · refine .inl ⟨hI', ?_, hread⟩
        rw [List.length_drop] at hall
        simp only [rest]
        omega
      · exact .inr hJ

/-- The invariant rule of `write`: a property of the decoder and the bytes it
has consumed. -/
theorem write_invariant
    (hstop : ∀ d seen derived, I d seen → d.toRead = 0 →
      fsm.action d.next d.buf d.derived = (none, derived) →
      I { d with derived := derived } seen)
    (d : Decoder St D) (data seen : List UInt8) (h : I d seen) :
    I (write fsm d data).1 (seen ++ data.take (write fsm d data).2) := by
  rcases write_rule hcopy hstep hstop d data seen h with ⟨hI, _⟩ | hI
  · exact hI
  · exact hI

end Write

theorem write_le (d : Decoder St D) (data : List UInt8) :
    (write fsm d data).2 ≤ data.length := by
  fun_induction write fsm d data with
  | case1 d data toCopy d' hsettle => exact Nat.min_le_right _ _
  | case2 d data toCopy d' hsettle hlen => exact Nat.min_le_right _ _
  | case3 d data toCopy d' hsettle hlen rest ih =>
      have hle : toCopy ≤ data.length := Nat.min_le_right _ _
      simp only [List.length_drop] at ih
      simp only [rest]
      omega

/-- `write` consumes its buffer and waits for more bytes, unless an action has
returned false. -/
theorem write_cases (fsm : DecoderFsm St D) (d : Decoder St D)
    (data : List UInt8) :
    ((write fsm d data).2 = data.length ∧
        (write fsm d data).1.toRead ≠ 0) ∨
      ((write fsm d data).1.toRead = 0 ∧
        ∃ derived, fsm.action (write fsm d data).1.next
            (write fsm d data).1.buf derived =
          (none, (write fsm d data).1.derived)) := by
  rcases write_rule (I := fun _ _ => True)
      (J := fun d' _ => d'.toRead = 0 ∧ ∃ derived,
        fsm.action d'.next d'.buf derived = (none, d'.derived))
      (fun _ _ _ _ _ => trivial) (fun _ _ _ _ _ _ _ _ => trivial)
      (fun d' _ _ _ hzero hact => ⟨hzero, d'.derived, hact⟩)
      d data [] trivial with ⟨_, hall⟩ | hstuck
  · exact .inl hall
  · exact .inr hstuck

/-! ### Cutting the input

`write` is described byte by byte; what it does then does not depend on how the
bytes are cut into buffers. -/

theorem settle_of_pos (h : d.toRead ≠ 0) : settle fsm d = (true, d) := by
  rw [settle, if_neg h]

theorem settle_of_some (h : d.toRead = 0)
    (hact : fsm.action d.next d.buf d.derived =
      (some (toRead, next), derived)) :
    settle fsm d = settle fsm (nextStep toRead next derived) := by
  rw [settle, if_pos h]
  split
  · next hact' => rw [hact] at hact'; cases hact'
  · next hact' => rw [hact] at hact'; cases hact'; rfl

theorem settle_of_none (h : d.toRead = 0)
    (hact : fsm.action d.next d.buf d.derived = (none, derived)) :
    settle fsm d = (false, { d with derived := derived }) := by
  rw [settle, if_pos h]
  split
  · next hact' => rw [hact] at hact'; cases hact'; rfl
  · next hact' => rw [hact] at hact'; cases hact'

theorem copy_nil (d : Decoder St D) : d.copy [] = d := by
  simp only [copy, List.append_nil, List.length_nil, Nat.sub_zero]

/-- The bytes are taken one by one.  The flag is false when an action has
returned false; the bytes after that are not looked at. -/
def feed (fsm : DecoderFsm St D) (d : Decoder St D) :
    List UInt8 → Bool × Decoder St D
  | [] => (true, d)
  | b :: rest =>
      match settle fsm (d.copy [b]) with
      | (true, d') => feed fsm d' rest
      | (false, d') => (false, d')

theorem feed_append (fsm : DecoderFsm St D) (d : Decoder St D)
    (data data' : List UInt8) :
    feed fsm d (data ++ data') =
      if (feed fsm d data).1 then feed fsm (feed fsm d data).2 data'
      else feed fsm d data := by
  induction data generalizing d with
  | nil => rfl
  | cons b data ih =>
      rcases hsettle : settle fsm (d.copy [b]) with ⟨_ | _, d'⟩
      · simp only [List.cons_append, feed, hsettle]
        rfl
      · simp only [List.cons_append, feed, hsettle]
        exact ih d'

/-- A decoder that has taken bytes wants more of them, or is stuck. -/
theorem feed_toRead (h : d.toRead ≠ 0) (htrue : (feed fsm d data).1 = true) :
    (feed fsm d data).2.toRead ≠ 0 := by
  induction data generalizing d with
  | nil => exact h
  | cons b data ih =>
      have hread := settle_toRead fsm (d.copy [b])
      rcases hsettle : settle fsm (d.copy [b]) with ⟨_ | _, d'⟩
      · simp only [feed, hsettle] at htrue
        cases htrue
      · simp only [feed, hsettle] at htrue ⊢
        rw [hsettle] at hread
        exact ih (hread rfl) htrue

theorem settle_stuck (h : (settle fsm d).1 = false) :
    (settle fsm d).2.toRead = 0 := by
  fun_induction settle fsm d with
  | case1 d hzero derived hact => exact hzero
  | case2 d hzero toRead next derived hact ih => exact ih h
  | case3 d hzero => cases h

theorem feed_stuck (h : (feed fsm d data).1 = false) :
    (feed fsm d data).2.toRead = 0 := by
  induction data generalizing d with
  | nil => cases h
  | cons b data ih =>
      rcases hsettle : settle fsm (d.copy [b]) with ⟨_ | _, d'⟩
      · have hstuck := settle_stuck (congrArg Prod.fst hsettle)
        rw [hsettle] at hstuck
        simp only [feed, hsettle]
        exact hstuck
      · simp only [feed, hsettle] at h ⊢
        exact ih h

/-- Bytes up to the end of a step are copied, and then the actions are taken. -/
theorem feed_of_le (fsm : DecoderFsm St D) (hne : data ≠ [])
    (hle : data.length ≤ d.toRead) :
    feed fsm d data = settle fsm (d.copy data) := by
  induction data generalizing d with
  | nil => exact (hne rfl).elim
  | cons b data ih =>
      rw [List.length_cons] at hle
      by_cases hnil : data = []
      · subst hnil
        simp only [feed]
        split <;> (next hsettle => rw [hsettle])
      · have hpos := List.length_pos_iff.mpr hnil
        have hread : (d.copy [b]).toRead = d.toRead - 1 := rfl
        have hcopy : (d.copy [b]).copy data = d.copy (b :: data) := by
          simp only [copy, List.append_assoc, List.singleton_append,
            List.length_cons, List.length_nil]
          congr 1
          omega
        simp only [feed, settle_of_pos
          (show (d.copy [b]).toRead ≠ 0 by omega)]
        rw [ih hnil (by omega), hcopy]

/-- All the bytes of a step, when the action wants more of them. -/
theorem feed_of_some (hbuf : d.buf = []) (hlen : data.length = d.toRead)
    (hne : d.toRead ≠ 0)
    (hact : fsm.action d.next data d.derived = (some (toRead, next), derived)) :
    feed fsm d data = settle fsm (nextStep toRead next derived) := by
  have hdata : data ≠ [] := by
    rintro rfl
    exact hne hlen.symm
  rw [feed_of_le fsm hdata (Nat.le_of_eq hlen)]
  refine settle_of_some ?_ ?_
  · simp only [copy]
    omega
  · simpa only [copy, hbuf, List.nil_append] using hact

/-- All the bytes of a step, when the action returns false. -/
theorem feed_of_none (hbuf : d.buf = []) (hlen : data.length = d.toRead)
    (hne : d.toRead ≠ 0)
    (hact : fsm.action d.next data d.derived = (none, derived)) :
    feed fsm d data =
      (false, ⟨data, 0, d.next, derived⟩) := by
  have hdata : data ≠ [] := by
    rintro rfl
    exact hne hlen.symm
  rw [feed_of_le fsm hdata (Nat.le_of_eq hlen)]
  have hzero : (d.copy data).toRead = 0 := by
    simp only [copy]
    omega
  have hact' : fsm.action (d.copy data).next (d.copy data).buf
      (d.copy data).derived = (none, derived) := by
    simpa only [copy, hbuf, List.nil_append] using hact
  rw [settle_of_none hzero hact']
  simp only [copy, hbuf, List.nil_append, hlen, Nat.sub_self]

/-- `write` is `feed`, for a decoder that wants bytes; it stops after the byte
whose action has returned false. -/
theorem write_eq_feed (fsm : DecoderFsm St D) (d : Decoder St D)
    (data : List UInt8) (h : d.toRead ≠ 0) :
    (write fsm d data).1 = (feed fsm d data).2 ∧
      ((feed fsm d data).1 = true → (write fsm d data).2 = data.length) ∧
      feed fsm d (data.take (write fsm d data).2) = feed fsm d data := by
  -- The first round of the loop, with at least one byte.
  have hround : ∀ (d : Decoder St D) (data : List UInt8),
      data.take (min d.toRead data.length) ≠ [] →
      feed fsm d (data.take (min d.toRead data.length)) =
        settle fsm (d.copy (data.take (min d.toRead data.length))) := by
    intro d data hne
    exact feed_of_le fsm hne (by rw [List.length_take]; omega)
  fun_induction write fsm d data with
  | case1 d data toCopy d' hsettle =>
      have hne : data.take toCopy ≠ [] := by
        intro hnil
        rw [hnil, copy_nil, settle_of_pos h] at hsettle
        cases hsettle
      have hall := feed_append fsm d (data.take toCopy) (data.drop toCopy)
      rw [List.take_append_drop, hround d data hne, hsettle] at hall
      rw [hall, hround d data hne, hsettle]
      exact ⟨rfl, fun htrue => (Bool.false_ne_true htrue).elim, rfl⟩
  | case2 d data toCopy d' hsettle hlen =>
      have htake : data.take toCopy = data := by
        rw [← hlen, List.take_length]
      rw [htake] at hsettle
      by_cases hnil : data = []
      · subst hnil
        rw [copy_nil, settle_of_pos h] at hsettle
        cases hsettle
        exact ⟨rfl, fun _ => hlen.symm, by rw [htake]⟩
      · rw [htake, feed_of_le fsm hnil (by omega), hsettle]
        exact ⟨rfl, fun _ => hlen.symm, rfl⟩
  | case3 d data toCopy d' hsettle hlen rest ih =>
      have hle : toCopy ≤ data.length := Nat.min_le_right _ _
      have hne : data.take toCopy ≠ [] := by
        intro hnil
        have hzero := congrArg List.length hnil
        rw [List.length_take, List.length_nil] at hzero
        omega
      have hread := settle_toRead fsm (d.copy (data.take toCopy))
      rw [hsettle] at hread
      have hfirst : ∀ bytes, feed fsm d (data.take toCopy ++ bytes) =
          feed fsm d' bytes := by
        intro bytes
        rw [feed_append, hround d data hne, hsettle, if_pos rfl]
      have hall := hfirst (data.drop toCopy)
      rw [List.take_append_drop] at hall
      obtain ⟨hd, hn, htaken⟩ := ih (hread rfl)
      rw [hall, List.take_add, hfirst]
      refine ⟨hd, fun htrue => ?_, htaken⟩
      have := hn htrue
      rw [List.length_drop] at this
      simp only [rest]
      omega

/-- All bytes are consumed when only the last one can make an action return
false. -/
theorem write_concat (h : d.toRead ≠ 0) (htrue : (feed fsm d data).1 = true)
    (b : UInt8) :
    write fsm d (data ++ [b]) =
      ((feed fsm d (data ++ [b])).2, data.length + 1) := by
  obtain ⟨hd, hn, htaken⟩ := write_eq_feed fsm d (data ++ [b]) h
  refine Prod.ext hd ?_
  have hle : (write fsm d (data ++ [b])).2 ≤ (data ++ [b]).length :=
    write_le d (data ++ [b])
  rw [List.length_append, List.length_singleton] at hn hle
  cases hflag : (feed fsm d (data ++ [b])).1 with
  | true => exact hn hflag
  | false =>
      rcases Nat.lt_or_ge data.length (write fsm d (data ++ [b])).2 with
        hlt | hpre
      · exact Nat.le_antisymm hle hlt
      · -- Stopping earlier means that a byte of `data` has done it.
        rw [List.take_append_of_le_length hpre] at htaken
        have hsplit := feed_append fsm d
          (data.take (write fsm d (data ++ [b])).2)
          (data.drop (write fsm d (data ++ [b])).2)
        rw [List.take_append_drop, htaken, hflag, if_neg (by simp)] at hsplit
        rw [hsplit, hflag] at htrue
        cases htrue

/-- `write` starts with the actions that want no bytes, and one of them returns
false. -/
theorem write_of_stuck (h : d.toRead = 0)
    (hsettle : settle fsm d = (false, d')) (data : List UInt8) :
    write fsm d data = (d', 0) := by
  have hcopy : d.copy (data.take (min d.toRead data.length)) = d := by
    rw [h, Nat.zero_min, List.take_zero, copy_nil]
  rw [write]
  split
  · next hs =>
      rw [hcopy, hsettle] at hs
      cases hs
      rw [h, Nat.zero_min]
  · next hs =>
      rw [hcopy, hsettle] at hs
      cases hs

theorem write_of_none (h : d.toRead = 0)
    (hact : fsm.action d.next d.buf d.derived = (none, derived))
    (data : List UInt8) :
    write fsm d data = ({ d with derived := derived }, 0) :=
  write_of_stuck h (settle_of_none h hact) data

theorem write_of_settle (h : d.toRead = 0)
    (hsettle : settle fsm d = (true, d')) (hne : data ≠ []) :
    write fsm d data = write fsm d' data := by
  have hcopy : d.copy (data.take (min d.toRead data.length)) = d := by
    rw [h, Nat.zero_min, List.take_zero, copy_nil]
  have hlen : data.length ≠ min d.toRead data.length := by
    rw [h, Nat.zero_min]
    exact Nat.ne_of_gt (List.length_pos_iff.mpr hne)
  rw [write]
  split
  · next hs =>
      rw [hcopy, hsettle] at hs
      cases hs
  · next hs =>
      rw [hcopy, hsettle] at hs
      cases hs
      rw [if_neg hlen, h, Nat.zero_min, List.drop_zero]
      simp only [Nat.zero_add]

theorem write_nil (fsm : DecoderFsm St D) (d : Decoder St D) :
    write fsm d [] = ((settle fsm d).2, 0) := by
  have hcopy : d.copy (([] : List UInt8).take
      (min d.toRead ([] : List UInt8).length)) = d := by
    rw [List.take_nil, copy_nil]
  have hzero : min d.toRead ([] : List UInt8).length = 0 := Nat.min_zero _
  rw [write]
  split
  · next hs =>
      rw [hcopy] at hs
      rw [hs, hzero]
  · next hs =>
      rw [hcopy] at hs
      rw [hs, hzero]
      rfl

/-- The pieces are written one after the other, as long as each of them is
consumed completely. -/
def writes (fsm : DecoderFsm St D) (d : Decoder St D) :
    List (List UInt8) → Option (Decoder St D)
  | [] => some d
  | piece :: pieces =>
      if (write fsm d piece).2 = piece.length then
        writes fsm (write fsm d piece).1 pieces
      else none

theorem writes_append (fsm : DecoderFsm St D) (d : Decoder St D)
    (pieces more : List (List UInt8)) :
    writes fsm d (pieces ++ more) =
      (writes fsm d pieces).bind fun d => writes fsm d more := by
  induction pieces generalizing d with
  | nil => rfl
  | cons piece pieces ih =>
      rw [List.cons_append, writes, writes]
      split
      · exact ih _
      · rfl

/-- However a byte string is cut, the decoder sees it as a whole. -/
theorem writes_of_feed (h : d.toRead ≠ 0)
    (pieces : List (List UInt8))
    (hfeed : feed fsm d pieces.flatten = (true, d')) :
    writes fsm d pieces = some d' := by
  induction pieces generalizing d with
  | nil =>
      cases hfeed
      rfl
  | cons piece pieces ih =>
      rw [List.flatten_cons, feed_append] at hfeed
      split at hfeed
      · next htrue =>
          obtain ⟨hd, hn, _⟩ := write_eq_feed fsm d piece h
          rw [writes, if_pos (hn htrue), hd]
          exact ih (feed_toRead h htrue) hfeed
      · next hfalse =>
          rw [hfeed] at hfalse
          exact (hfalse rfl).elim

end Decoder

end ZeroMQ
