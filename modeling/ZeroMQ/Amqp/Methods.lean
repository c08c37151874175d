import Mathlib.Data.List.TakeWhile
import Mathlib.Tactic.Common
import ZeroMQ.Amqp.Encoder

/-!
# AMQP methods

`amqp/amqp.gsl` generates the methods of `amqp_marshaller_t` and
`amqp_unmarshaller_t` from the definitions in `amqp/amqp0-9-1.xml`: for each
field of a method a piece of code that puts it into a buffer, or takes it out
of one.  The model is generic in the definitions, as the template is.

Two details of the unmarshaller can be seen from outside.  `get_field_table`
gets its offset by value, so a field that comes after a table is taken from
where the table begins.  The case of a class is not ended by a `break`, so a
method its class does not have is looked for in the classes that follow.

A failed assertion is `none`.

## Main definitions

* `ClassDef`, `MethodDef`, `amqpClasses` — the definitions.
* `getFields`, `unmarshal` — `amqp_unmarshaller_t::write`.
* `putFields`, `marshal` — the methods of `amqp_marshaller_t`.

## Main results

* `caseOf_close` — the callbacks for a closed connection and a closed channel
  are called for these two methods only.
-/

namespace ZeroMQ

open Amqp

namespace Amqp

def exchangeId : UInt16 := 40
def txId : UInt16 := 90
def connectionCloseId : UInt16 := 50
def channelCloseId : UInt16 := 40

end Amqp

/-! ## Definitions -/

/-- The types of fields. -/
inductive FieldType where
  | bit
  | octet
  | short
  | long
  | longlong
  | timestamp
  | shortstr
  | longstr
  | table
  deriving DecidableEq, Repr

/-- `field_table_t`, a `std::map`. -/
abbrev FieldTable := Std.ExtTreeMap (List UInt8) (List UInt8)

/-- The values of fields. -/
inductive FieldValue where
  | bit (value : Bool)
  | octet (value : UInt8)
  | short (value : UInt16)
  | long (value : UInt32)
  | longlong (value : UInt64)
  | timestamp (value : UInt64)
  | shortstr (value : List UInt8)
  | longstr (value : List UInt8)
  | table (value : FieldTable)

/-- A method; `ν` is the type of names. -/
structure MethodDef (ν : Type) where
  name : ν
  id : UInt16
  fields : List FieldType
  deriving DecidableEq, Repr

/-- A class with its methods. -/
structure ClassDef (ν : Type) where
  id : UInt16
  methods : List (MethodDef ν)
  deriving DecidableEq, Repr

/-- The methods of `i_amqp`. -/
inductive AmqpMethod where
  | connectionStart
  | connectionStartOk
  | connectionSecure
  | connectionSecureOk
  | connectionTune
  | connectionTuneOk
  | connectionOpen
  | connectionOpenOk
  | connectionClose
  | connectionCloseOk
  | channelOpen
  | channelOpenOk
  | channelFlow
  | channelFlowOk
  | channelClose
  | channelCloseOk
  | exchangeDeclare
  | exchangeDeclareOk
  | exchangeDelete
  | exchangeDeleteOk
  | queueDeclare
  | queueDeclareOk
  | queueBind
  | queueBindOk
  | queueUnbind
  | queueUnbindOk
  | queuePurge
  | queuePurgeOk
  | queueDelete
  | queueDeleteOk
  | basicQos
  | basicQosOk
  | basicConsume
  | basicConsumeOk
  | basicCancel
  | basicCancelOk
  | basicPublish
  | basicReturn
  | basicDeliver
  | basicGet
  | basicGetOk
  | basicGetEmpty
  | basicAck
  | basicReject
  | basicRecoverAsync
  | basicRecover
  | basicRecoverOk
  | txSelect
  | txSelectOk
  | txCommit
  | txCommitOk
  | txRollback
  | txRollbackOk
  deriving DecidableEq, Repr

def connectionClass : ClassDef AmqpMethod :=
  ⟨connectionId,
    [⟨.connectionStart, 10, [.octet, .octet, .table, .longstr, .longstr]⟩,
      ⟨.connectionStartOk, 11, [.table, .shortstr, .longstr, .shortstr]⟩,
      ⟨.connectionSecure, 20, [.longstr]⟩,
      ⟨.connectionSecureOk, 21, [.longstr]⟩,
      ⟨.connectionTune, 30, [.short, .long, .short]⟩,
      ⟨.connectionTuneOk, 31, [.short, .long, .short]⟩,
      ⟨.connectionOpen, 40, [.shortstr, .shortstr, .bit]⟩,
      ⟨.connectionOpenOk, 41, [.shortstr]⟩,
      ⟨.connectionClose, connectionCloseId,
        [.short, .shortstr, .short, .short]⟩,
      ⟨.connectionCloseOk, 51, []⟩]⟩

def channelClass : ClassDef AmqpMethod :=
  ⟨channelId,
    [⟨.channelOpen, 10, [.shortstr]⟩,
      ⟨.channelOpenOk, 11, [.longstr]⟩,
      ⟨.channelFlow, 20, [.bit]⟩,
      ⟨.channelFlowOk, 21, [.bit]⟩,
      ⟨.channelClose, channelCloseId, [.short, .shortstr, .short, .short]⟩,
      ⟨.channelCloseOk, 41, []⟩]⟩

def exchangeClass : ClassDef AmqpMethod :=
  ⟨exchangeId,
    [⟨.exchangeDeclare, 10,
        [.short, .shortstr, .shortstr, .bit, .bit, .bit, .bit, .bit, .table]⟩,
      ⟨.exchangeDeclareOk, 11, []⟩,
      ⟨.exchangeDelete, 20, [.short, .shortstr, .bit, .bit]⟩,
      ⟨.exchangeDeleteOk, 21, []⟩]⟩

def queueClass : ClassDef AmqpMethod :=
  ⟨queueId,
    [⟨.queueDeclare, 10,
        [.short, .shortstr, .bit, .bit, .bit, .bit, .bit, .table]⟩,
      ⟨.queueDeclareOk, 11, [.shortstr, .long, .long]⟩,
      ⟨.queueBind, 20,
        [.short, .shortstr, .shortstr, .shortstr, .bit, .table]⟩,
      ⟨.queueBindOk, 21, []⟩,
      ⟨.queueUnbind, 50, [.short, .shortstr, .shortstr, .shortstr, .table]⟩,
      ⟨.queueUnbindOk, 51, []⟩,
      ⟨.queuePurge, 30, [.short, .shortstr, .bit]⟩,
      ⟨.queuePurgeOk, 31, [.long]⟩,
      ⟨.queueDelete, 40, [.short, .shortstr, .bit, .bit, .bit]⟩,
      ⟨.queueDeleteOk, 41, [.long]⟩]⟩

def basicClass : ClassDef AmqpMethod :=
  ⟨basicId,
    [⟨.basicQos, 10, [.long, .short, .bit]⟩,
      ⟨.basicQosOk, 11, []⟩,
      ⟨.basicConsume, 20,
        [.short, .shortstr, .shortstr, .bit, .bit, .bit, .bit, .table]⟩,
      ⟨.basicConsumeOk, 21, [.shortstr]⟩,
      ⟨.basicCancel, 30, [.shortstr, .bit]⟩,
      ⟨.basicCancelOk, 31, [.shortstr]⟩,
      ⟨.basicPublish, basicPublishId,
        [.short, .shortstr, .shortstr, .bit, .bit]⟩,
      ⟨.basicReturn, 50, [.short, .shortstr, .shortstr, .shortstr]⟩,
      ⟨.basicDeliver, basicDeliverId,
        [.shortstr, .longlong, .bit, .shortstr, .shortstr]⟩,
      ⟨.basicGet, 70, [.short, .shortstr, .bit]⟩,
      ⟨.basicGetOk, 71, [.longlong, .bit, .shortstr, .shortstr, .long]⟩,
      ⟨.basicGetEmpty, 72, [.shortstr]⟩,
      ⟨.basicAck, 80, [.longlong, .bit]⟩,
      ⟨.basicReject, 90, [.longlong, .bit]⟩,
      ⟨.basicRecoverAsync, 100, [.bit]⟩,
      ⟨.basicRecover, 110, [.bit]⟩,
      ⟨.basicRecoverOk, 111, []⟩]⟩

def txClass : ClassDef AmqpMethod :=
  ⟨txId,
    [⟨.txSelect, 10, []⟩,
      ⟨.txSelectOk, 11, []⟩,
      ⟨.txCommit, 20, []⟩,
      ⟨.txCommitOk, 21, []⟩,
      ⟨.txRollback, 30, []⟩,
      ⟨.txRollbackOk, 31, []⟩]⟩

/-- The classes of `amqp0-9-1.xml`. -/
def amqpClasses : List (ClassDef AmqpMethod) :=
  [connectionClass, channelClass, exchangeClass, queueClass, basicClass,
    txClass]

/-- Where a method is defined. -/
def definition {ν : Type} [DecidableEq ν] (classes : List (ClassDef ν))
    (name : ν) : Option (UInt16 × MethodDef ν) :=
  (classes.flatMap fun c => c.methods.map fun m => (c.id, m)).find?
    fun m => m.2.name = name

/-! ## `amqp_unmarshaller_t` -/

/-- The assertion that there are `n` more bytes, and the offset after them. -/
def advance (args : List UInt8) (offset n : Nat) : Option Nat :=
  if offset + n ≤ args.length then some (offset + n) else none

theorem advance_eq_some {args : List UInt8} {offset n next : Nat}
    (h : advance args offset n = some next) :
    next = offset + n ∧ next ≤ args.length := by
  rw [advance] at h
  split at h
  · cases h
    exact ⟨rfl, by assumption⟩
  · cases h

/-- A string with its size in one byte, and the offset after it. -/
def getShortstr (args : List UInt8) (offset : Nat) :
    Option (List UInt8 × Nat) := do
  let start ← advance args offset 1
  let size := ((args.drop offset).headD 0).toNat
  let next ← advance args start size
  return ((args.drop start).take size, next)

/-- A string with its size in four bytes, and the offset after it. -/
def getLongstr (args : List UInt8) (offset : Nat) :
    Option (List UInt8 × Nat) := do
  let start ← advance args offset 4
  let size := (getUint32 (args.drop offset)).toNat
  let next ← advance args start size
  return ((args.drop start).take size, next)

/-- The text `%ld` makes of a number. -/
def decimal (value : UInt16) : List UInt8 :=
  (Nat.toDigits 10 value.toNat).map fun digit => UInt8.ofNat digit.toNat

/-- One round of the loop in `get_field_table`: the name and the value of an
entry, what is added to `pos`, and the offset after the entry.  An integer is
cut to 16 bits. -/
def getEntry (args : List UInt8) (offset : Nat) :
    Option (List UInt8 × List UInt8 × Nat × Nat) := do
  let (name, offset) ← getShortstr args offset
  let start ← advance args offset 1
  let type := (args.drop offset).headD 0
  if type = 83 then -- 'S'
    let (value, next) ← getLongstr args start
    return (name, value, 1 + name.length + 1 + 4 + value.length, next)
  else if type = 73 then -- 'I'
    let next ← advance args start 4
    return (name, decimal (getUint32 (args.drop start)).toUInt16,
      1 + name.length + 1 + 4, next)
  else none

theorem getShortstr_next {args name : List UInt8} {offset next : Nat}
    (h : getShortstr args offset = some (name, next)) : offset < next := by
  simp only [getShortstr, Option.bind_eq_bind, Option.bind_eq_some_iff,
    Option.pure_def, Option.some.injEq, Prod.mk.injEq] at h
  obtain ⟨start, hstart, next', hnext, _, rfl⟩ := h
  have := (advance_eq_some hstart).1
  have := (advance_eq_some hnext).1
  omega

theorem getLongstr_next {args value : List UInt8} {offset next : Nat}
    (h : getLongstr args offset = some (value, next)) :
    offset < next ∧ next ≤ args.length := by
  simp only [getLongstr, Option.bind_eq_bind, Option.bind_eq_some_iff,
    Option.pure_def, Option.some.injEq, Prod.mk.injEq] at h
  obtain ⟨start, hstart, next', hnext, _, rfl⟩ := h
  have := (advance_eq_some hstart).1
  have := advance_eq_some hnext
  omega

theorem getEntry_next {args name value : List UInt8} {offset size next : Nat}
    (h : getEntry args offset = some (name, value, size, next)) :
    offset < next ∧ next ≤ args.length := by
  simp only [getEntry, Option.bind_eq_bind, Option.bind_eq_some_iff] at h
  obtain ⟨⟨name', offset'⟩, hname, start, hstart, h⟩ := h
  have hlt := getShortstr_next hname
  have hstart' := (advance_eq_some hstart).1
  split at h
  · simp only [Option.bind_eq_some_iff] at h
    obtain ⟨⟨value', next'⟩, hvalue, h⟩ := h
    cases h
    have := getLongstr_next hvalue
    omega
  · split at h
    · simp only [Option.bind_eq_some_iff] at h
      obtain ⟨next', hnext, h⟩ := h
      cases h
      have := advance_eq_some hnext
      omega
    · cases h

/-- The loop of `get_field_table`. -/
def getEntries (args : List UInt8) (tableSize pos offset : Nat)
    (table : FieldTable) : Option FieldTable :=
  if pos = tableSize then some table
  else
    match _ : getEntry args offset with
    | none => none
    | some (name, value, size, next) =>
        getEntries args tableSize (pos + size) next (table.insert name value)
termination_by args.length - offset
decreasing_by
  next h =>
    have := getEntry_next h
    omega

/-- `get_field_table`. -/
def getFieldTable (args : List UInt8) (offset : Nat) : Option FieldTable := do
  let start ← advance args offset 4
  getEntries args (getUint32 (args.drop offset)).toNat 0 start ∅

/-- A field that is not a bit, and the offset after it.  The offset of a table
is not changed. -/
def getField (args : List UInt8) (offset : Nat) :
    FieldType → Option (FieldValue × Nat)
  | .bit => none
  | .octet =>
      (advance args offset 1).map
        (.octet ((args.drop offset).headD 0), ·)
  | .short =>
      (advance args offset 2).map (.short (getUint16 (args.drop offset)), ·)
  | .long =>
      (advance args offset 4).map (.long (getUint32 (args.drop offset)), ·)
  | .longlong =>
      (advance args offset 8).map
        (.longlong (getUint64 (args.drop offset)), ·)
  | .timestamp =>
      (advance args offset 8).map
        (.timestamp (getUint64 (args.drop offset)), ·)
  | .shortstr => (getShortstr args offset).map fun s => (.shortstr s.1, s.2)
  | .longstr => (getLongstr args offset).map fun s => (.longstr s.1, s.2)
  | .table => (getFieldTable args offset).map fun t => (.table t, offset)

/-- The fields of a method.  `bitOffset` is the number of bits that have been
taken from the byte at `offset`; only the first of them makes an assertion. -/
def getFields (args : List UInt8) :
    List FieldType → Nat → Nat → Option (List FieldValue)
  | [], _, _ => some []
  | .bit :: types, bitOffset, offset => do
      let bitOffset := if bitOffset = 8 then 0 else bitOffset
      if bitOffset = 0 then
        let _ ← advance args offset 1
      let values ← getFields args types (bitOffset + 1) offset
      return .bit (((args.drop offset).headD 0).toNat.testBit bitOffset) ::
        values
  | type :: types, bitOffset, offset => do
      let offset := if 0 < bitOffset then offset + 1 else offset
      let (value, next) ← getField args offset type
      let values ← getFields args types 0 next
      return value :: values

/-- A call of `i_amqp`. -/
structure MethodCall (ν : Type) where
  method : ν
  channel : UInt16
  args : List FieldValue

/-- Where the two switches lead: a class is searched and then those after it. -/
def caseOf {ν : Type} (classes : List (ClassDef ν))
    (classId methodId : UInt16) : Option (MethodDef ν) :=
  ((classes.dropWhile fun c => c.id ≠ classId).flatMap
    ClassDef.methods).find? fun m => m.id = methodId

/-- `amqp_unmarshaller_t::write`, up to the call it makes, if any. -/
def unmarshal {ν : Type} (classes : List (ClassDef ν)) (cmd : AmqpCommand) :
    Option (Option (MethodCall ν)) :=
  match caseOf classes cmd.classId cmd.methodId with
  | none => some none
  | some m =>
      (getFields cmd.args m.fields 0 0).map fun values =>
        some ⟨m.name, cmd.channel, values⟩

/-- The method found has the id, and its class was among those searched. -/
theorem caseOf_eq_some {ν : Type} {classes : List (ClassDef ν)}
    {classId methodId : UInt16} {m : MethodDef ν}
    (h : caseOf classes classId methodId = some m) :
    m.id = methodId ∧ m ∈ classes.flatMap ClassDef.methods ∧
      classId ∈ classes.map ClassDef.id := by
  refine ⟨by simpa using List.find?_some h, ?_, ?_⟩
  · obtain ⟨c, hc, hm⟩ := List.mem_flatMap.mp (List.mem_of_find?_eq_some h)
    exact List.mem_flatMap.mpr ⟨c, List.dropWhile_subset _ hc, hm⟩
  · by_contra hnot
    -- The outer switch has no case for the class.
    have hnone : (classes.dropWhile fun c => c.id ≠ classId) = [] := by
      rw [List.dropWhile_eq_nil_iff]
      intro c hc
      rw [decide_eq_true_iff]
      rintro rfl
      exact hnot (List.mem_map_of_mem hc)
    rw [caseOf, hnone] at h
    cases h

theorem caseOf_close {classId methodId : UInt16} {m : MethodDef AmqpMethod}
    (h : caseOf amqpClasses classId methodId = some m)
    (hclose : m.name = .connectionClose ∨ m.name = .channelClose) :
    (classId = connectionId ∧ methodId = connectionCloseId) ∨
      (classId = channelId ∧ methodId = channelCloseId) := by
  obtain ⟨hid, hmem, hclass⟩ := caseOf_eq_some h
  have hids : ∀ m ∈ amqpClasses.flatMap ClassDef.methods,
      m.name = .connectionClose ∨ m.name = .channelClose →
        m.id ∈ [connectionCloseId, channelCloseId] := by decide
  have hmethod := hids m hmem hclose
  rw [hid] at hmethod
  -- What is left are six classes and two methods.
  have hcases : (amqpClasses.map ClassDef.id).all fun classId =>
      [connectionCloseId, channelCloseId].all fun methodId =>
        (caseOf amqpClasses classId methodId).all fun m => decide
          (m.name = .connectionClose ∨ m.name = .channelClose →
            (classId = connectionId ∧ methodId = connectionCloseId) ∨
              (classId = channelId ∧ methodId = channelCloseId)) := by
    decide
  have hcase := List.all_eq_true.mp
    (List.all_eq_true.mp hcases classId hclass) methodId hmethod
  rw [h, Option.all_some] at hcase
  exact of_decide_eq_true hcase hclose

/-! ## `amqp_marshaller_t` -/

/-- An entry of a field table.  The size of the name is cut to a byte. -/
def tableEntry (name value : List UInt8) : List UInt8 :=
  shortstr name ++ [83] ++ putUint32 (UInt32.ofNat value.length) ++ value

/-- `put_field_table`. -/
def tableBytes (table : FieldTable) : List UInt8 :=
  let entries := table.toList.flatMap fun entry => tableEntry entry.1 entry.2
  putUint32 (UInt32.ofNat entries.length) ++ entries

/-- The bytes of a field that is not a bit. -/
def fieldBytes : FieldValue → List UInt8
  | .bit _ => []
  | .octet value => [value]
  | .short value => putUint16 value
  | .long value => putUint32 value
  | .longlong value => putUint64 value
  | .timestamp value => putUint64 value
  | .shortstr value => shortstr value
  | .longstr value => putUint32 (UInt32.ofNat value.length) ++ value
  | .table value => tableBytes value

/-- A field is put behind the others; it is asserted that the buffer is large
enough for every part of it. -/
def putField (args : List UInt8) (value : FieldValue) : Option (List UInt8) :=
  if args.length + (fieldBytes value).length ≤ frameMinSize then
    some (args ++ fieldBytes value)
  else none

/-- A bit in its place. -/
def bitByte (value : Bool) (bitOffset : Nat) : UInt8 :=
  UInt8.ofNat (value.toNat <<< bitOffset)

/-- The fields of a method.  `bitOffset` is the number of bits in the last byte
of the buffer, when these come from bits. -/
def putFields : List FieldValue → Nat → List UInt8 → Option (List UInt8)
  | [], _, args => some args
  | .bit value :: values, bitOffset, args =>
      if bitOffset = 0 ∨ bitOffset = 8 then
        if args.length + 1 ≤ frameMinSize then
          putFields values 1 (args ++ [bitByte value 0])
        else none
      else
        putFields values (bitOffset + 1)
          (args.dropLast ++ [args.getLastD 0 ||| bitByte value bitOffset])
  | value :: values, _, args =>
      (putField args value).bind (putFields values 0)

theorem length_putFields_le {values : List FieldValue} {bitOffset : Nat}
    {args out : List UInt8} (h : putFields values bitOffset args = some out)
    (hargs : args.length ≤ frameMinSize) : out.length ≤ frameMinSize := by
  induction values generalizing bitOffset args with
  | nil =>
      cases h
      exact hargs
  | cons value values ih =>
      unfold putFields at h
      split at h
      · next heq => cases heq
      · next v values' _ _ heq =>
          cases heq
          split at h
          · rw [Option.ite_none_right_eq_some] at h
            exact ih h.2 (by simpa using h.1)
          · have hmin : 1 ≤ frameMinSize := by decide
            refine ih h ?_
            simp only [List.length_append, List.length_dropLast,
              List.length_singleton]
            omega
      · next heq =>
          cases heq
          obtain ⟨args', hput, h⟩ := Option.bind_eq_some_iff.mp h
          rw [putField, Option.ite_none_right_eq_some] at hput
          obtain ⟨hroom, heq⟩ := hput
          cases heq
          refine ih h ?_
          rw [List.length_append]
          exact hroom

/-- A method of the marshaller: the command it puts into its queue. -/
def marshal {ν : Type} (classId : UInt16) (m : MethodDef ν) (channel : UInt16)
    (values : List FieldValue) : Option AmqpCommand :=
  (putFields values 0 []).map fun args =>
    { channel := channel, classId := classId, methodId := m.id, args := args }

end ZeroMQ
