import ZeroMQ.Dam.File
import ZeroMQ.Message.Raw

/-!
# `data_dam_t`

The messages of a `data_dam_t` (`libzmq/data_dam.cpp`) are records in its swap
file: the size of the message, and then its bytes or, if it has none, its type.
The size is a `size_t` and the type an `int`, both as the processor keeps them,
the lowest byte first.

`store` asks for room for the size and the bytes, although a message without
bytes takes four bytes for its type, and it destroys the message only if it has
bytes.  `DamSys.Proper` is the condition under which neither does harm.

The contents of messages live in a `Memory` that everybody changes; a call is
given the memory it finds and leaves another one.

## Main definitions

* `Dam.store`, `Dam.fetch` — the operations.
* `record` — the bytes of a message in the file.

## Main results

* `Dam.store_eq`, `Dam.fetch_eq` — the operations in terms of records.
* `DamSys.Inv.refines` — the dam of `ZeroMQ.Pipe.Basic` is what the messages in
  the file look like.
* `data_dam_fifo` — the dam is a bounded FIFO of messages.
-/

namespace ZeroMQ

open ZeroMQ.Lib

/-! ## Numbers in memory -/

/-- The bytes of an unsigned number of the given width. -/
def nativeBytes : Nat → Nat → List UInt8
  | 0, _ => []
  | width + 1, n => UInt8.ofNat n :: nativeBytes width (n / 256)

def ofNative : List UInt8 → Nat
  | [] => 0
  | byte :: bytes => byte.toNat + 256 * ofNative bytes

@[simp] theorem length_nativeBytes (width n : Nat) :
    (nativeBytes width n).length = width := by
  induction width generalizing n with
  | zero => rfl
  | succ width ih => rw [nativeBytes, List.length_cons, ih]

theorem ofNative_nativeBytes {width n : Nat} (h : n < 256 ^ width) :
    ofNative (nativeBytes width n) = n := by
  induction width generalizing n with
  | zero =>
      rw [Nat.pow_zero, Nat.lt_one_iff] at h
      exact h.symm
  | succ width ih =>
      have hlt : n / 256 < 256 ^ width := by
        rw [Nat.pow_succ] at h
        omega
      have hbyte : (UInt8.ofNat n).toNat = n % 256 := UInt8.toNat_ofNat'
      rw [nativeBytes, ofNative, ih hlt, hbyte]
      omega

/-! ## The bytes of a message -/

/-- The contents, and what their members `data` point to. -/
structure Memory where
  heap : Heap
  data : Nat → List UInt8

/-- `raw_message_size`. -/
def rawMessageSize (msg : RawMessage) (h : Heap) : Option Nat :=
  match msg with
  | .data ⟨.vsm, _, size, _⟩ => some size
  | .data ⟨.ptr a, _, _, _⟩ => (h.block a).map fun b => b.content.size
  | _ => some 0

/-- The first `n` bytes at `raw_message_data`. -/
def rawMessageData (msg : RawMessage) (m : Memory) (n : Nat) :
    Option (List UInt8) :=
  match msg with
  | .data ⟨.vsm, _, _, data⟩ => getAt data 0 n
  | .data ⟨.ptr a, _, _, _⟩ => (m.heap.block a).bind fun _ => getAt (m.data a) 0 n
  | _ => none

/-- `memcpy` to `raw_message_data`. -/
def setMessageData (msg : RawMessage) (m : Memory) (bytes : List UInt8) :
    Option (RawMessage × Memory) :=
  match msg with
  | .data ⟨.vsm, shared, size, data⟩ =>
      (putAt data 0 bytes).map fun data =>
        (.data ⟨.vsm, shared, size, data⟩, m)
  | .data ⟨.ptr a, _, _, _⟩ =>
      (m.heap.block a).map fun _ =>
        (msg, { m with data := Function.update m.data a bytes })
  | _ => none

/-- `raw_message_init` or `raw_message_init_notification`, as the type tells. -/
def rawMessageOfType (msg : RawMessage) (tag : Nat) (h : Heap) :
    Option (RawMessage × Heap) :=
  if tag = 0 then some (rawMessageInit msg 0 h)
  else if tag = 1 then some (.gap, h)
  else if tag = 31 then some (.delimiter, h)
  else none

/-- What is in a message: its type and its bytes. -/
def RawMsg.value (m : Memory) (msg : RawMessage) :
    Option (RawMsg (List UInt8)) :=
  match msg with
  | .data _ =>
      (rawMessageSize msg m.heap).bind fun size =>
        (rawMessageData msg m size).map .data
  | .gap => some .gap
  | .delimiter => some .delimiter

/-! ## The operations -/

/-- `data_dam_t`.  Every message takes some bytes of the file, so `n_msgs` does
not wrap. -/
structure Dam where
  file : DamFile
  nMsgs : Nat

namespace Dam

/-- `store`: its result, the dam and the memory. -/
def store (d : Dam) (msg : RawMessage) (m : Memory) :
    Option (Bool × Dam × Memory) :=
  (rawMessageSize msg m.heap).bind fun msgSize =>
    if (d.file.bufferSpace : Int) ≤ int64 (8 + msgSize) then
      some (false, d, m)
    else
      (d.file.copyToFile (nativeBytes 8 msgSize)).bind fun file =>
        if 0 < msgSize then
          (rawMessageData msg m msgSize).bind fun data =>
            (file.copyToFile data).map fun file =>
              (true, ⟨file, d.nMsgs + 1⟩,
                { m with heap := rawMessageDestroy msg m.heap })
        else
          (file.copyToFile (nativeBytes 4 (rawMessageType msg))).map fun file =>
            (true, ⟨file, d.nMsgs + 1⟩, m)

/-- `fetch`: the message, the dam and the memory.  `raw` is what happens to be
in the `raw_message_t`, which the caller has not initialised. -/
def fetch (d : Dam) (raw : Handle) (m : Memory) :
    Option (RawMessage × Dam × Memory) :=
  if d.nMsgs = 0 then none
  else
    (d.file.copyFromFile 8).bind fun (bytes, file) =>
      let msgSize := ofNative bytes
      if 0 < msgSize then
        let (msg, heap) := rawMessageInit (.data raw) msgSize m.heap
        (file.copyFromFile msgSize).bind fun (bytes, file) =>
          (setMessageData msg { m with heap := heap } bytes).map fun (msg, m) =>
            (msg, ⟨file, d.nMsgs - 1⟩, m)
      else
        (file.copyFromFile 4).bind fun (bytes, file) =>
          (rawMessageOfType (.data raw) (ofNative bytes) m.heap).map
            fun (msg, heap) =>
              (msg, ⟨file, d.nMsgs - 1⟩, { m with heap := heap })

/-- `empty`. -/
def empty (d : Dam) : Bool := d.nMsgs == 0

end Dam

/-! ## Records -/

/-- The number of bytes of a message. -/
def RawMsg.size : RawMsg (List UInt8) → Nat
  | .data bytes => bytes.length
  | _ => 0

/-- What follows the size. -/
def RawMsg.body (v : RawMsg (List UInt8)) : List UInt8 :=
  match v with
  | .data (byte :: bytes) => byte :: bytes
  | _ => nativeBytes 4 (rawMessageType v)

/-- A message in the file. -/
def record (v : RawMsg (List UInt8)) : List UInt8 :=
  nativeBytes 8 v.size ++ v.body

/-- The room in a file of `filesize` bytes that holds `msgs`. -/
def damRoom (filesize : Nat) (msgs : List (RawMsg (List UInt8)))
    (v : RawMsg (List UInt8)) : Bool :=
  8 + v.size < filesize - (msgs.flatMap record).length

variable {msg : RawMessage} {m : Memory} {v : RawMsg (List UInt8)}

theorem RawMsg.body_of_pos (h : 0 < v.size) : v = .data v.body := by
  match v with
  | .data [] | .gap | .delimiter => exact (Nat.lt_irrefl 0 h).elim
  | .data (_ :: _) => rfl

theorem RawMsg.body_of_zero (h : v.size = 0) :
    v.body = nativeBytes 4 (rawMessageType v) := by
  match v with
  | .data [] => rfl
  | .data (_ :: _) => cases h
  | .gap => rfl
  | .delimiter => rfl

theorem RawMsg.length_body_of_pos (h : 0 < v.size) : v.body.length = v.size :=
  (congrArg RawMsg.size (body_of_pos h)).symm

theorem length_record_of_pos (h : 0 < v.size) :
    (record v).length = 8 + v.size := by
  rw [record, List.length_append, length_nativeBytes,
    RawMsg.length_body_of_pos h]

theorem length_record_of_zero (h : v.size = 0) : (record v).length = 12 := by
  rw [record, List.length_append, length_nativeBytes, RawMsg.body_of_zero h,
    length_nativeBytes]

theorem RawMsg.value_type (h : msg.value m = some v) :
    rawMessageType msg = rawMessageType v := by
  cases msg with
  | data handle =>
      obtain ⟨size, -, hdata⟩ := Option.bind_eq_some_iff.mp h
      obtain ⟨bytes, -, rfl⟩ := Option.map_eq_some_iff.mp hdata
      rfl
  | gap =>
      cases h
      rfl
  | delimiter =>
      cases h
      rfl

theorem getAt_length {buf bytes : List UInt8} {pos n : Nat}
    (h : getAt buf pos n = some bytes) : bytes.length = n := by
  unfold getAt at h
  split at h
  · next hle =>
      cases h
      rw [List.length_take, List.length_drop]
      omega
  · cases h

theorem rawMessageData_length {n : Nat} {bytes : List UInt8}
    (h : rawMessageData msg m n = some bytes) : bytes.length = n := by
  unfold rawMessageData at h
  split at h
  · exact getAt_length h
  · obtain ⟨_, -, hget⟩ := Option.bind_eq_some_iff.mp h
    exact getAt_length hget
  · cases h

theorem RawMsg.value_size (h : msg.value m = some v) :
    rawMessageSize msg m.heap = some v.size := by
  cases msg with
  | data handle =>
      obtain ⟨size, hsize, hdata⟩ := Option.bind_eq_some_iff.mp h
      obtain ⟨bytes, hbytes, rfl⟩ := Option.map_eq_some_iff.mp hdata
      rw [hsize, ← rawMessageData_length hbytes]
      rfl
  | gap =>
      cases h
      rfl
  | delimiter =>
      cases h
      rfl

theorem RawMsg.value_data (h : msg.value m = some v) (hpos : 0 < v.size) :
    rawMessageData msg m v.size = some v.body := by
  have hsize := value_size h
  cases msg with
  | data handle =>
      obtain ⟨size, hsize', hdata⟩ := Option.bind_eq_some_iff.mp h
      obtain ⟨bytes, hbytes, hv⟩ := Option.map_eq_some_iff.mp hdata
      rw [hsize', Option.some.injEq] at hsize
      have hbody : bytes = v.body := by
        rw [body_of_pos hpos, RawMsg.data.injEq] at hv
        exact hv
      rw [← hsize, hbytes, hbody]
  | gap | delimiter =>
      cases h
      exact (Nat.lt_irrefl 0 hpos).elim

/-! ## The operations in terms of records -/

section Records

variable {d : Dam} {size block r : Nat} {given : List UInt8}

theorem Dam.store_refused (hv : msg.value m = some v)
    (hsize : 8 + v.size < 2 ^ 63) (hspace : d.file.bufferSpace ≤ 8 + v.size) :
    d.store msg m = some (false, d, m) := by
  have hle : (d.file.bufferSpace : Int) ≤ int64 (8 + v.size) := by
    rw [int64_of_lt hsize]
    exact_mod_cast hspace
  rw [store, RawMsg.value_size hv, Option.bind_some, if_pos hle]

theorem Dam.store_eq (h : d.file.Holds size block given r)
    (hv : msg.value m = some v) (hsize : 8 + v.size < 2 ^ 63)
    (hspace : 8 + v.size < d.file.bufferSpace)
    (hroom : given.length + (record v).length < r + size) :
    ∃ file, d.store msg m = some (true, ⟨file, d.nMsgs + 1⟩,
        if 0 < v.size then
          { m with heap := rawMessageDestroy msg m.heap }
        else m) ∧
      file.Holds size block (given ++ record v) r := by
  have hgt : ¬ (d.file.bufferSpace : Int) ≤ int64 (8 + v.size) := by
    rw [int64_of_lt hsize]
    omega
  rw [record, List.length_append] at hroom
  obtain ⟨file₁, hfile₁, h₁⟩ :=
    h.copyToFile (nativeBytes 8 v.size) (by omega)
  obtain ⟨file₂, hfile₂, h₂⟩ :=
    h₁.copyToFile v.body (by rw [List.length_append]; omega)
  rw [List.append_assoc] at h₂
  refine ⟨file₂, ?_, h₂⟩
  rw [store, RawMsg.value_size hv, Option.bind_some, if_neg hgt, hfile₁,
    Option.bind_some]
  by_cases hpos : 0 < v.size
  · rw [if_pos hpos, if_pos hpos, RawMsg.value_data hv hpos, Option.bind_some,
      hfile₂]
    rfl
  · have hzero : v.size = 0 := by omega
    rw [if_neg hpos, if_neg hpos, RawMsg.value_type hv,
      ← RawMsg.body_of_zero hzero, hfile₂]
    rfl

theorem RawMsg.length_refs_le (msg : RawMessage) : msg.refs.length ≤ 1 := by
  unfold refs
  split
  · exact Nat.le_refl 1
  · exact Nat.zero_le 1

theorem setMessageData_eq (raw : Handle)
    (hraw : raw.vsmData.length = maxVsmSize) (m : Memory)
    (bytes : List UInt8) :
    ∃ msg m', setMessageData (rawMessageInit (.data raw) bytes.length m.heap).1
          { m with heap := (rawMessageInit (.data raw) bytes.length m.heap).2 }
          bytes = some (msg, m') ∧
      msg.value m' = some (.data bytes) ∧
      msg.refs = (rawMessageInit (.data raw) bytes.length m.heap).1.refs ∧
      m'.heap = (rawMessageInit (.data raw) bytes.length m.heap).2 := by
  unfold rawMessageInit
  by_cases hle : bytes.length ≤ maxVsmSize
  · have hfits : 0 + bytes.length ≤ raw.vsmData.length := by omega
    obtain ⟨buf, hput, hlen, hnew, -⟩ := putAt_eq_some hfits
    have hget : getAt buf 0 bytes.length = some bytes :=
      getAt_eq_some (by omega) hnew
    rw [if_pos hle]
    refine ⟨_, _, congrArg (Option.map _) hput, ?_, rfl, rfl⟩
    exact congrArg (Option.map _) hget
  · have hblock : (m.heap.malloc .inline bytes.length none).2.block
        (m.heap.malloc .inline bytes.length none).1 =
          some ⟨⟨.inline, bytes.length, none, 0⟩, 0, 0⟩ := by
      simp [Heap.malloc, Heap.block]
    have hget : getAt bytes 0 bytes.length = some bytes :=
      getAt_eq_some (by omega) (fun i _ => by rw [Nat.zero_add])
    rw [if_neg hle]
    refine ⟨_, _, congrArg (Option.map _) hblock, ?_, rfl, rfl⟩
    simp only [RawMsg.value, rawMessageSize, rawMessageData, hblock,
      Option.map_some, Option.bind_some, Function.update_self, hget]

theorem rawMessageOfType_eq (raw : Handle) (m : Memory) (h : v.size = 0) :
    ∃ msg, rawMessageOfType (.data raw) (rawMessageType v) m.heap =
        some (msg, m.heap) ∧ msg.value m = some v ∧ msg.refs = [] := by
  match v with
  | .data [] =>
      refine ⟨_, rfl, ?_, rfl⟩
      simp [RawMsg.value, rawMessageSize, rawMessageData, getAt]
  | .data (_ :: _) => cases h
  | .gap => exact ⟨.gap, rfl, rfl, rfl⟩
  | .delimiter => exact ⟨.delimiter, rfl, rfl, rfl⟩

theorem Dam.fetch_eq (h : d.file.Holds size block given r)
    {rest : List UInt8} (hnext : given.drop r = record v ++ rest)
    (hsize : v.size < 2 ^ 64) (hn : d.nMsgs ≠ 0) {raw : Handle}
    (hraw : raw.vsmData.length = maxVsmSize) (m : Memory) :
    ∃ msg file m', d.fetch raw m = some (msg, ⟨file, d.nMsgs - 1⟩, m') ∧
      msg.value m' = some v ∧
      file.Holds size block given (r + (record v).length) ∧
      ∀ refs, Sound m.heap refs → refs.length + 1 < 2 ^ 32 →
        Sound m'.heap (msg.refs ++ refs) := by
  rw [record, List.append_assoc] at hnext
  obtain ⟨file₁, hfile₁, h₁, hnext₁⟩ := h.copyNext hnext
  obtain ⟨file₂, hfile₂, h₂, -⟩ := h₁.copyNext hnext₁
  have hread : ofNative (nativeBytes 8 v.size) = v.size :=
    ofNative_nativeBytes hsize
  rw [length_nativeBytes] at hfile₁
  rw [Nat.add_assoc, ← List.length_append] at h₂
  rw [fetch, if_neg hn, hfile₁, Option.bind_some]
  dsimp only
  rw [hread]
  by_cases hpos : 0 < v.size
  · have hlen : v.body.length = v.size := RawMsg.length_body_of_pos hpos
    obtain ⟨msg, m', hset, hvalue, hrefs, hheap⟩ :=
      setMessageData_eq raw hraw m v.body
    rw [hlen] at hset hrefs hheap hfile₂
    refine ⟨msg, file₂, m', ?_, ?_, h₂, fun refs hs hfew => ?_⟩
    · rw [if_pos hpos, hfile₂, Option.bind_some]
      exact congrArg (Option.map _) hset
    · rw [hvalue, ← RawMsg.body_of_pos hpos]
    · rw [hheap, hrefs]
      refine hs.rawMessageInit _ _ ?_
      have hone := (rawMessageInit (.data raw) v.size m.heap).1.length_refs_le
      rw [List.length_append]
      omega
  · have hzero : v.size = 0 := by omega
    have htype : ofNative v.body = rawMessageType v := by
      rw [RawMsg.body_of_zero hzero, ofNative_nativeBytes]
      cases v <;> simp [rawMessageType]
    obtain ⟨msg, htag, hvalue, hrefs⟩ := rawMessageOfType_eq raw m hzero
    rw [RawMsg.body_of_zero hzero, length_nativeBytes,
      ← RawMsg.body_of_zero hzero] at hfile₂
    refine ⟨msg, file₂, m, ?_, hvalue, h₂, fun refs hs _ => ?_⟩
    · rw [if_neg hpos, hfile₂, Option.bind_some]
      dsimp only
      rw [htype, htag]
      rfl
    · rw [hrefs]
      exact hs

end Records

/-! ## The dam as a FIFO of messages -/

/-- A data dam with the messages it has accepted and returned. -/
structure DamSys where
  dam : Dam
  stored : List (RawMsg (List UInt8))
  fetched : List (RawMsg (List UInt8))

/-- The calls, with the memory they find. -/
inductive DamAct where
  | store (msg : RawMessage) (m : Memory)
  | fetch (raw : Handle) (m : Memory)

namespace DamSys

def start (filesize blockSize : Nat) (buf1 buf2 : List UInt8) : DamSys :=
  { dam := ⟨.create filesize blockSize buf1 buf2, 0⟩, stored := [],
    fetched := [] }

def step (s : DamSys) : DamAct → Option DamSys
  | .store msg m =>
      (msg.value m).bind fun v =>
        (s.dam.store msg m).map fun (accepted, dam, _) =>
          { s with
            dam := dam
            stored := if accepted then s.stored ++ [v] else s.stored }
  | .fetch raw m =>
      (s.dam.fetch raw m).bind fun (msg, dam, m) =>
        (msg.value m).map fun v =>
          { s with dam := dam, fetched := s.fetched ++ [v] }

/-- What the callers promise: a message with its bytes, or a structure for one
and a dam that is not empty. -/
def Legal (s : DamSys) : DamAct → Prop
  | .store msg m => (msg.value m).isSome = true
  | .fetch raw _ => raw.vsmData.length = maxVsmSize ∧ s.dam.empty = false

/-- A message without bytes has no content to release, and the file has room for
its type if it has room for its size.  No message is nearly as large as the
numbers of type `int64_t`. -/
def Proper (s : DamSys) : DamAct → Prop
  | .store msg m =>
      ∀ v ∈ msg.value m, 8 + v.size < 2 ^ 63 ∧ (v.size = 0 →
        msg.refs = [] ∧
          (s.dam.file.bufferSpace ≤ 8 ∨ 12 < s.dam.file.bufferSpace))
  | .fetch _ _ => True

instance (s : DamSys) (a : DamAct) : Decidable (s.Legal a) :=
  match a with
  | .store _ _ => inferInstanceAs (Decidable (_ = _))
  | .fetch _ _ => inferInstanceAs (Decidable (_ ∧ _))

instance (s : DamSys) (a : DamAct) : Decidable (s.Proper a) :=
  match a with
  | .store _ _ => inferInstanceAs (Decidable (∀ v ∈ _, _))
  | .fetch _ _ => .isTrue trivial

/-- The messages in the dam. -/
def pending (s : DamSys) : List (RawMsg (List UInt8)) :=
  s.stored.drop s.fetched.length

/-- The bytes in use. -/
def used (s : DamSys) : Nat := (s.pending.flatMap record).length

/-- The messages go through the file as records, and are counted. -/
structure Inv (size block : Nat) (s : DamSys) : Prop where
  holds : s.dam.file.Holds size block (s.stored.flatMap record)
    (s.fetched.flatMap record).length
  fifo : s.fetched ++ s.pending = s.stored
  count : s.dam.nMsgs = s.pending.length
  sizes : ∀ v ∈ s.stored, 8 + v.size < 2 ^ 63

variable {size block : Nat} {s s' : DamSys} {a : DamAct} {raw : Handle}

theorem Inv.used_add (h : Inv size block s) :
    (s.fetched.flatMap record).length + s.used =
      (s.stored.flatMap record).length := by
  rw [used, ← List.length_append, ← List.flatMap_append, h.fifo]

theorem Inv.used_lt (h : Inv size block s) : s.used < size := by
  have hahead := h.holds.ahead
  have hadd := h.used_add
  omega

theorem Inv.bufferSpace (h : Inv size block s) :
    s.dam.file.bufferSpace = size - s.used := by
  have hadd := h.used_add
  rw [h.holds.bufferSpace]
  omega

theorem Inv.damRoom (h : Inv size block s) (v : RawMsg (List UInt8)) :
    ZeroMQ.damRoom size s.pending v = true ↔
      8 + v.size < s.dam.file.bufferSpace := by
  rw [h.bufferSpace]
  exact decide_eq_true_iff

theorem pending_eq {msgs : List (RawMsg (List UInt8))}
    (h : s.fetched ++ msgs = s.stored) : s.pending = msgs := by
  rw [pending, ← h, List.drop_left]

theorem Inv.store_refused (h : Inv size block s) {v : RawMsg (List UInt8)}
    (hv : msg.value m = some v) (hok : s.Proper (.store msg m))
    (hroom : ¬ ZeroMQ.damRoom size s.pending v = true) :
    s.dam.store msg m = some (false, s.dam, m) := by
  rw [h.damRoom, Nat.not_lt] at hroom
  exact Dam.store_refused hv (hok v hv).1 hroom

theorem Inv.store_accepted (h : Inv size block s) {v : RawMsg (List UInt8)}
    (hv : msg.value m = some v) (hok : s.Proper (.store msg m))
    (hroom : ZeroMQ.damRoom size s.pending v = true) :
    ∃ dam m', s.dam.store msg m = some (true, dam, m') ∧
      Inv size block { s with dam := dam, stored := s.stored ++ [v] } ∧
      ∀ refs, Sound m.heap (msg.refs ++ refs) → Sound m'.heap refs := by
  obtain ⟨hsize, hempty⟩ := hok v hv
  have hadd := h.used_add
  have hused := h.used_lt
  have hspace := h.bufferSpace
  have hlt := (h.damRoom v).mp hroom
  have hfits : (s.stored.flatMap record).length + (record v).length <
      (s.fetched.flatMap record).length + size := by
    rcases Nat.eq_zero_or_pos v.size with hzero | hpos
    · rw [length_record_of_zero hzero]
      have := (hempty hzero).2
      omega
    · rw [length_record_of_pos hpos]
      omega
  obtain ⟨file, hstore, hholds⟩ :=
    Dam.store_eq h.holds hv hsize hlt hfits
  have hfifo : s.fetched ++ (s.pending ++ [v]) = s.stored ++ [v] := by
    rw [← List.append_assoc, h.fifo]
  refine ⟨_, _, hstore, ⟨?_, ?_, ?_, ?_⟩, fun refs hs => ?_⟩
  · rw [List.flatMap_append, List.flatMap_singleton]
    exact hholds
  · rw [pending_eq hfifo]
    exact hfifo
  · rw [pending_eq hfifo, List.length_append, ← h.count]
    rfl
  · intro u hu
    rcases List.mem_append.mp hu with hu | hu
    · exact h.sizes u hu
    · rw [List.mem_singleton.mp hu]
      exact hsize
  · split
    · exact hs.rawMessageDestroy
    · next hpos =>
        rw [(hempty (Nat.eq_zero_of_not_pos hpos)).1] at hs
        exact hs

theorem Inv.fetch (h : Inv size block s) (hlegal : s.Legal (.fetch raw m)) :
    ∃ v rest msg dam m', s.pending = v :: rest ∧
      s.dam.fetch raw m = some (msg, dam, m') ∧ msg.value m' = some v ∧
      Inv size block { s with dam := dam, fetched := s.fetched ++ [v] } ∧
      ∀ refs, Sound m.heap refs → refs.length + 1 < 2 ^ 32 →
        Sound m'.heap (msg.refs ++ refs) := by
  obtain ⟨hraw, hempty⟩ := hlegal
  have hn : s.dam.nMsgs ≠ 0 := beq_eq_false_iff_ne.mp hempty
  have hcount := h.count
  have hfifo := h.fifo
  cases hpending : s.pending with
  | nil =>
      rw [hpending] at hcount
      exact (hn hcount).elim
  | cons v rest =>
      rw [hpending] at hfifo hcount
      have hfifo' : s.fetched ++ [v] ++ rest = s.stored := by
        rw [List.append_assoc]
        exact hfifo
      have hmem : v ∈ s.stored := by
        rw [← hfifo]
        simp
      have hnext : (s.stored.flatMap record).drop
          (s.fetched.flatMap record).length =
            record v ++ rest.flatMap record := by
        rw [← hfifo, List.flatMap_append, List.drop_left, List.flatMap_cons]
      obtain ⟨msg, file, m', hfetch, hvalue, hholds, hsound⟩ :=
        Dam.fetch_eq h.holds hnext (by have := h.sizes v hmem; omega) hn hraw m
      refine ⟨v, rest, msg, _, m', rfl, hfetch, hvalue, ⟨?_, ?_, ?_, h.sizes⟩,
        hsound⟩
      · rw [List.flatMap_append, List.length_append, List.flatMap_singleton]
        exact hholds
      · rw [pending_eq hfifo']
        exact hfifo'
      · rw [pending_eq hfifo']
        show s.dam.nMsgs - 1 = rest.length
        rw [hcount, List.length_cons, Nat.add_sub_cancel]

/-- The dam of a pipe. -/
def dataDam (s : DamSys) : DataDam (List UInt8) :=
  ⟨ZeroMQ.damRoom s.dam.file.filesize, s.pending⟩

/-- A call does to the messages in the file what it does to a `DataDam`. -/
def Refines (s s' : DamSys) : DamAct → Prop
  | .store msg m => ∃ v, msg.value m = some v ∧
      (s.dataDam.store v = some s'.dataDam ∧ s'.stored = s.stored ++ [v] ∨
        s.dataDam.store v = none ∧ s' = s) ∧ s'.fetched = s.fetched
  | .fetch _ _ => ∃ v, s.dataDam.fetch = some (v, s'.dataDam) ∧
      s'.fetched = s.fetched ++ [v] ∧ s'.stored = s.stored

theorem Inv.refines (h : Inv size block s) (hlegal : s.Legal a)
    (hok : s.Proper a) :
    ∃ s', s.step a = some s' ∧ Inv size block s' ∧ s.Refines s' a := by
  have hfilesize := h.holds.filesize
  cases a with
  | store msg m =>
      obtain ⟨v, hv⟩ := Option.isSome_iff_exists.mp hlegal
      by_cases hroom : ZeroMQ.damRoom size s.pending v = true
      · obtain ⟨dam, m', hstore, hinv, -⟩ := h.store_accepted hv hok hroom
        have hsize : dam.file.filesize = size := hinv.holds.filesize
        have hpending : ({ s with dam := dam, stored := s.stored ++ [v] } :
            DamSys).pending = s.pending ++ [v] :=
          pending_eq (by rw [← List.append_assoc, h.fifo])
        refine ⟨_, ?_, hinv, v, hv, .inl ⟨?_, rfl⟩, rfl⟩
        · rw [step, hv, Option.bind_some, hstore]
          rfl
        · rw [dataDam, dataDam, DataDam.store, hfilesize, hpending, hsize,
            if_pos hroom]
      · refine ⟨s, ?_, h, v, hv, .inr ⟨?_, rfl⟩, rfl⟩
        · rw [step, hv, Option.bind_some, h.store_refused hv hok hroom]
          rfl
        · rw [dataDam, DataDam.store, hfilesize, if_neg hroom]
  | fetch raw m =>
      obtain ⟨v, rest, msg, dam, m', hpending, hfetch, hvalue, hinv, -⟩ :=
        h.fetch hlegal
      have hsize : dam.file.filesize = size := hinv.holds.filesize
      have hfifo := h.fifo
      rw [hpending] at hfifo
      have hrest : ({ s with dam := dam, fetched := s.fetched ++ [v] } :
          DamSys).pending = rest :=
        pending_eq (by rw [List.append_assoc]; exact hfifo)
      refine ⟨_, ?_, hinv, v, ?_, rfl, rfl⟩
      · rw [step, hfetch, Option.bind_some]
        dsimp only
        rw [hvalue]
        rfl
      · rw [dataDam, dataDam, DataDam.fetch, hpending, hrest, hfilesize, hsize]

theorem Inv.start {buf1 buf2 : List UInt8} (hsize : 0 < size)
    (hblock : 0 < block) (h1 : buf1.length = block)
    (h2 : buf2.length = block) : Inv size block (start size block buf1 buf2) where
  holds := .create hsize hblock h1 h2
  fifo := rfl
  count := rfl
  sizes := by simp [DamSys.start]

theorem Inv.run {buf1 buf2 : List UInt8} (hsize : 0 < size)
    (hblock : 0 < block) (h1 : buf1.length = block) (h2 : buf2.length = block)
    {acts : List DamAct}
    (hrun : Run step (fun s a => s.Legal a ∧ s.Proper a)
      (DamSys.start size block buf1 buf2) acts s) : Inv size block s := by
  refine hrun.invariant (fun s a s' h hok hstep => ?_)
    (.start hsize hblock h1 h2)
  obtain ⟨s₁, hs₁, h₁, -⟩ := h.refines hok.1 hok.2
  rw [hs₁, Option.some.injEq] at hstep
  exact hstep ▸ h₁

end DamSys

/-- **The dam is a bounded FIFO of messages.**  In a run whose calls are all
`Proper` the bytes in use are fewer than the file has and messages are fetched
in the order they were stored.  A call of `store` that returns false changes
nothing; one that returns true releases the message.  A call of `fetch` returns
the oldest message, type and bytes. -/
theorem data_dam_fifo {size block : Nat} {buf1 buf2 : List UInt8}
    (hsize : 0 < size) (hblock : 0 < block) (h1 : buf1.length = block)
    (h2 : buf2.length = block) {acts : List DamAct} {s : DamSys}
    (hrun : Run DamSys.step (fun s a => s.Legal a ∧ s.Proper a)
      (.start size block buf1 buf2) acts s) :
    s.used < size ∧ s.fetched <+: s.stored ∧
      (s.dam.empty = true ↔ s.fetched = s.stored) ∧
      (∀ msg m, s.Legal (.store msg m) → s.Proper (.store msg m) →
        s.dam.store msg m = some (false, s.dam, m) ∨
        ∃ dam m', s.dam.store msg m = some (true, dam, m') ∧
          ∀ refs, Sound m.heap (msg.refs ++ refs) → Sound m'.heap refs) ∧
      ∀ raw m, s.Legal (.fetch raw m) →
        ∃ msg dam m', s.dam.fetch raw m = some (msg, dam, m') ∧
          msg.value m' = s.stored[s.fetched.length]? ∧
          ∀ refs, Sound m.heap refs → refs.length + 1 < 2 ^ 32 →
            Sound m'.heap (msg.refs ++ refs) := by
  have hinv := DamSys.Inv.run hsize hblock h1 h2 hrun
  refine ⟨hinv.used_lt, ⟨_, hinv.fifo⟩, ?_, fun msg m hlegal hok => ?_,
    fun raw m hlegal => ?_⟩
  · rw [Dam.empty, beq_iff_eq, hinv.count, List.length_eq_zero_iff,
      ← hinv.fifo, List.self_eq_append_right]
  · obtain ⟨v, hv⟩ := Option.isSome_iff_exists.mp hlegal
    by_cases hroom : damRoom size s.pending v = true
    · obtain ⟨dam, m', hstore, -, hsound⟩ := hinv.store_accepted hv hok hroom
      exact .inr ⟨dam, m', hstore, hsound⟩
    · exact .inl (hinv.store_refused hv hok hroom)
  · obtain ⟨v, rest, msg, dam, m', hpending, hfetch, hvalue, -, hsound⟩ :=
      hinv.fetch hlegal
    refine ⟨msg, dam, m', hfetch, ?_, hsound⟩
    rw [hvalue, ← List.head?_drop, show s.stored.drop s.fetched.length =
      s.pending from rfl, hpending]
    rfl

/-- A very small message. -/
def smallMessage (bytes : List UInt8) : RawMessage :=
  .data ⟨.vsm, false, bytes.length, bytes⟩

/-- No contents. -/
def noContents : Memory := ⟨⟨[], false⟩, fun _ => []⟩

/-- A structure that was not initialised. -/
def someHandle : Handle := ⟨.vsm, false, 0, List.replicate maxVsmSize 0⟩

/-- A file of 48 bytes: two messages and a notification, and no room for a
third message. -/
theorem data_dam_fifo_full :
    ∃ s, Run DamSys.step (fun s a => s.Legal a ∧ s.Proper a)
        (.start 48 8 (List.replicate 8 0) (List.replicate 8 0))
        [.store (smallMessage [1, 2, 3]) noContents, .store .gap noContents,
          .store (smallMessage [4, 5]) noContents,
          .store (smallMessage [6, 7, 8, 9, 10, 11, 12]) noContents,
          .fetch someHandle noContents] s ∧
      s.stored = [.data [1, 2, 3], .gap, .data [4, 5]] ∧
      s.fetched = [.data [1, 2, 3]] ∧ s.used < 48 ∧
      ∃ dam m', s.dam.fetch someHandle noContents = some (.gap, dam, m') := by
  refine Run.exists_of_exec
    (P := fun s => s.stored = [.data [1, 2, 3], .gap, .data [4, 5]] ∧
      s.fetched = [.data [1, 2, 3]] ∧
      s.Legal (.fetch someHandle noContents)) (by decide +kernel) ?_
  rintro s hrun ⟨hstored, hfetched, hlegal⟩
  have hsize : 0 < 48 := by decide
  have hblock : 0 < 8 := by decide
  obtain ⟨hused, -, -, -, hfetch⟩ :=
    data_dam_fifo hsize hblock rfl rfl hrun
  obtain ⟨msg, dam, m', hmsg, hvalue, -⟩ := hfetch _ _ hlegal
  rw [hstored, hfetched] at hvalue
  have hgap : msg = .gap := by
    cases msg with
    | gap => rfl
    | delimiter => cases hvalue
    | data handle =>
        obtain ⟨_, -, hdata⟩ := Option.bind_eq_some_iff.mp hvalue
        obtain ⟨_, -, hdata⟩ := Option.map_eq_some_iff.mp hdata
        cases hdata
  exact ⟨hstored, hfetched, hused, dam, m', hgap ▸ hmsg⟩

/-- In a file of 21 bytes a message of one byte and a notification are stored,
which take 9 and 12 bytes.  The file then looks empty, the next message is
written over the first one, and is what `fetch` returns.  A message of no bytes
that was made from a buffer of the user is stored and its content is not
released. -/
theorem data_dam_overrun :
    (∃ s, Run DamSys.step DamSys.Legal
        (.start 21 8 (List.replicate 8 0) (List.replicate 8 0))
        [.store (smallMessage [7]) noContents, .store .gap noContents] s ∧
      ¬ s.used < 21) ∧
    (∃ s, Run DamSys.step DamSys.Legal
        (.start 21 8 (List.replicate 8 0) (List.replicate 8 0))
        [.store (smallMessage [7]) noContents, .store .gap noContents,
          .store (smallMessage [8]) noContents,
          .fetch someHandle noContents] s ∧
      ¬ s.fetched <+: s.stored) ∧
    ∃ (msg : RawMessage) (m : Memory) (dam : Dam),
      msg.value m = some (.data []) ∧ Sound m.heap msg.refs ∧
      (DamSys.start 21 8 (List.replicate 8 0) (List.replicate 8 0)).dam.store
        msg m = some (true, dam, m) ∧
      ¬ Sound m.heap [] := by
  refine ⟨Run.of_exec_any (by decide +kernel),
    Run.of_exec_any (by decide +kernel), ?_⟩
  let made := rawMessageInitData (smallMessage []) 5 0 (some 1) ⟨[], false⟩
  have hsound : Sound made.2 (made.1.refs ++ []) :=
    Sound.empty.rawMessageInitData (smallMessage []) 5 0 (some 1) (by decide)
  have hvalue : made.1.value ⟨made.2, fun _ => []⟩ = some (.data []) := rfl
  have hstart : DamSys.Inv 21 8
      (.start 21 8 (List.replicate 8 0) (List.replicate 8 0)) :=
    .start (by decide) (by decide) rfl rfl
  obtain ⟨file, hstore, -⟩ :=
    Dam.store_eq hstart.holds hvalue (by decide) (by decide) (by decide)
  refine ⟨made.1, ⟨made.2, fun _ => []⟩, _, hvalue, hsound, hstore, ?_⟩
  intro hlost
  have hcount : Counted ([] : List (Ref Nat)) 0 (some 0) := hlost.exact 0
  cases hcount with
  | sole _ _ hu => cases hu
  | shared _ hpos _ => exact Nat.lt_irrefl 0 hpos

end ZeroMQ
