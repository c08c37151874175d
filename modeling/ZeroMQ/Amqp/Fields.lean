import ZeroMQ.Amqp.Tables

/-!
# The fields of AMQP methods

The marshaller puts the fields of a method behind each other and the
unmarshaller takes them from there.  Bits share a byte with the bits next to
them, so what has been put may still change until the byte is full or a field of
another type follows.

Up to the first table the fields that are taken are those that were put.  A
table is taken correctly, too, but the offset stays where the table begins.

## Main definitions

* `FieldType.bitsAfter`, `FieldType.minSize` — the bits in the last byte, and
  the least number of bytes, of a list of fields.
* `Extends` — a buffer and one with more fields in it.
* `FieldType.zero`, `FieldType.nonzero` — the least values of a type.

## Main results

* `getFields_initial` — fields before the first table.
* `getFields_zeros` — fields that are taken from zeros.
* `getFields_shortKeys` — keys that are taken are short.
-/

namespace ZeroMQ

variable {types : List FieldType} {value : FieldValue}
  {values : List FieldValue} {bitOffset offset : Nat} {args : List UInt8}

open Amqp

/-! ## Values -/

namespace FieldValue

/-- The type of a field with this value. -/
def type : FieldValue → FieldType
  | .bit _ => .bit
  | .octet _ => .octet
  | .short _ => .short
  | .long _ => .long
  | .longlong _ => .longlong
  | .timestamp _ => .timestamp
  | .shortstr _ => .shortstr
  | .longstr _ => .longstr
  | .table _ => .table

/-- A value of the type of the C++ code: the size of a `shortstr_t` is one
byte. -/
def Sound : FieldValue → Prop
  | .shortstr string => string.length ≤ 0xff
  | _ => True

/-- The size of every key fits into a byte. -/
def ShortKeys : FieldValue → Prop
  | .table value => ∀ entry ∈ value.toList, entry.1.length ≤ 0xff
  | _ => True

end FieldValue

/-! ## What has been put is what is taken -/

theorem advance_append (acc bytes more : List UInt8) :
    advance (acc ++ (bytes ++ more)) acc.length bytes.length =
      some (acc ++ bytes).length := by
  rw [advance, if_pos]
  · rw [List.length_append]
  · simp only [List.length_append]
    omega

theorem getUint32_size {bytes : List UInt8} (h : bytes.length ≤ frameMinSize) :
    (getUint32 (putUint32 (UInt32.ofNat bytes.length))).toNat =
      bytes.length := by
  have hle : bytes.length ≤ 4096 := h
  have hget := getUint32_append (UInt32.ofNat bytes.length) []
  rw [List.append_nil] at hget
  rw [hget]
  exact UInt32.toNat_ofNat_of_lt' (by rw [UInt32.size]; omega)

theorem getShortstr_append {string : List UInt8} (h : string.length ≤ 0xff)
    (acc more : List UInt8) :
    getShortstr (acc ++ (shortstr string ++ more)) acc.length =
      some (string, (acc ++ shortstr string).length) := by
  refine getShortstr_iff.mpr ⟨h, ?_, List.length_append⟩
  rw [List.drop_left]
  exact List.prefix_append _ _

theorem getLongstr_append {string : List UInt8}
    (h : string.length ≤ frameMinSize) (acc more : List UInt8) :
    getLongstr (acc ++ (putUint32 (UInt32.ofNat string.length) ++
        (string ++ more))) acc.length =
      some (string,
        (acc ++ (putUint32 (UInt32.ofNat string.length) ++ string)).length) := by
  refine getLongstr_iff.mpr ⟨putUint32 (UInt32.ofNat string.length), rfl,
    getUint32_size h, ?_, List.length_append⟩
  rw [List.drop_left, ← List.append_assoc]
  exact List.prefix_append _ _

/-! ### Tables -/

/-- An entry that has been put. -/
def TableField.ofEntry (entry : List UInt8 × List UInt8) : TableField :=
  .string entry.1 (putUint32 (UInt32.ofNat entry.2.length)) entry.2

theorem TableField.bytes_ofEntry (entry : List UInt8 × List UInt8) :
    (ofEntry entry).bytes = tableEntry entry.1 entry.2 := by
  simp only [ofEntry, bytes, tableEntry, List.append_assoc]

theorem foldl_insert_toList (table : FieldTable) :
    table.toList.foldl (fun table entry => table.insert entry.1 entry.2)
      (∅ : FieldTable) = table := by
  have hmany : ∀ (entries : List (List UInt8 × List UInt8)) (start : FieldTable),
      entries.foldl (fun table entry => table.insert entry.1 entry.2) start =
        start.insertMany entries := by
    intro entries
    induction entries with
    | nil => exact fun start => (Std.ExtTreeMap.insertMany_nil).symm
    | cons entry entries ih =>
        intro start
        rw [List.foldl_cons, ih, Std.ExtTreeMap.insertMany_cons]
  rw [hmany]
  apply Std.ExtTreeMap.ext_getElem?
  intro name
  cases hname : table[name]? with
  | some value =>
      exact Std.ExtTreeMap.getElem?_insertMany_list_of_mem Std.ReflCmp.compare_self
        Std.ExtTreeMap.distinct_keys_toList
        (Std.ExtTreeMap.mem_toList_iff_getElem?_eq_some.mpr hname)
  | none =>
      rw [Std.ExtTreeMap.getElem?_insertMany_list_of_contains_eq_false]
      · rfl
      · rw [Std.ExtTreeMap.map_fst_toList_eq_keys, Bool.eq_false_iff]
        intro hmem
        rw [List.contains_iff_mem, Std.ExtTreeMap.mem_keys,
          Std.ExtTreeMap.mem_iff_isSome_getElem?, hname] at hmem
        cases hmem

theorem getFieldTable_append {table : FieldTable}
    (hkeys : (FieldValue.table table).ShortKeys)
    (hfits : (tableBytes table).length ≤ frameMinSize)
    (acc more : List UInt8) :
    getFieldTable (acc ++ (tableBytes table ++ more)) acc.length =
      some table := by
  let entries := table.toList.flatMap fun entry => tableEntry entry.1 entry.2
  have hput : (putUint32 (UInt32.ofNat entries.length)).length = 4 := rfl
  have hlength : entries.length + 4 ≤ frameMinSize := by
    have hle : (putUint32 (UInt32.ofNat entries.length) ++ entries).length ≤
      frameMinSize := hfits
    rw [List.length_append, hput] at hle
    omega
  have hbytes : (table.toList.map TableField.ofEntry).flatMap TableField.bytes =
      entries := by
    rw [List.flatMap_map]
    exact congrArg table.toList.flatMap (funext TableField.bytes_ofEntry)
  have hdrop : (acc ++ (tableBytes table ++ more)).drop acc.length =
      putUint32 (UInt32.ofNat entries.length) ++ (entries ++ more) := by
    rw [List.drop_left]
    exact List.append_assoc _ _ _
  refine getFieldTable_iff.mpr ⟨table.toList.map TableField.ofEntry,
    ⟨?_, ?_, ?_, ?_⟩, ?_⟩
  · have hlong := congrArg List.length hdrop
    simp only [List.length_drop, List.length_append, hput] at hlong ⊢
    omega
  · intro f hf
    obtain ⟨entry, hmem, rfl⟩ := List.mem_map.mp hf
    have hsub : (tableEntry entry.1 entry.2).Sublist entries := by
      rw [show entries = _ from List.flatMap_def]
      exact List.sublist_flatten_of_mem (List.mem_map.mpr ⟨entry, hmem, rfl⟩)
    have hle := hsub.length_le
    rw [tableEntry, List.length_append] at hle
    exact ⟨hkeys entry hmem, rfl, getUint32_size (by omega)⟩
  · rw [hbytes, ← List.drop_drop, hdrop, ← hput, List.drop_left]
    exact List.prefix_append _ _
  · rw [hbytes, hdrop, getUint32_of_isPrefix hput (List.prefix_append _ _),
      getUint32_size (by omega)]
  · rw [List.foldl_map]
    exact (foldl_insert_toList table).symm

/-! ### Fields -/

/-- A field that is not a bit; the offset is not moved by a table. -/
theorem getField_append (hbit : value.type ≠ .bit) (hsound : value.Sound)
    (hkeys : value.ShortKeys) (hfits : (fieldBytes value).length ≤ frameMinSize)
    (acc more : List UInt8) :
    getField (acc ++ (fieldBytes value ++ more)) acc.length value.type =
      some (value, if value.type = .table then acc.length
        else (acc ++ fieldBytes value).length) := by
  cases value with
  | bit value => exact (hbit rfl).elim
  | octet value =>
      have hadvance := advance_append acc [value] more
      rw [List.length_singleton] at hadvance
      simp only [FieldValue.type, fieldBytes, getField, List.drop_left,
        hadvance]
      rfl
  | short value =>
      have hadvance := advance_append acc (putUint16 value) more
      rw [show (putUint16 value).length = 2 from rfl] at hadvance
      simp only [FieldValue.type, fieldBytes, getField, List.drop_left,
        hadvance, getUint16_append]
      rfl
  | long value =>
      have hadvance := advance_append acc (putUint32 value) more
      rw [show (putUint32 value).length = 4 from rfl] at hadvance
      simp only [FieldValue.type, fieldBytes, getField, List.drop_left,
        hadvance, getUint32_append]
      rfl
  | longlong value | timestamp value =>
      have hadvance := advance_append acc (putUint64 value) more
      rw [show (putUint64 value).length = 8 from rfl] at hadvance
      simp only [FieldValue.type, fieldBytes, getField, List.drop_left,
        hadvance, getUint64_append]
      rfl
  | shortstr value =>
      simp only [FieldValue.type, fieldBytes, getField,
        getShortstr_append hsound]
      rfl
  | longstr value =>
      have hle : value.length ≤ frameMinSize := by
        simp only [fieldBytes, List.length_append] at hfits
        omega
      simp only [FieldValue.type, fieldBytes, getField, List.append_assoc,
        getLongstr_append hle]
      rfl
  | table value =>
      simp only [FieldValue.type, fieldBytes, getField,
        getFieldTable_append hkeys hfits]
      rfl

/-! ## Bits and sizes -/

namespace FieldType

/-- The least number of bytes of a field that is not a bit. -/
def width : FieldType → Nat
  | .bit => 0
  | .octet => 1
  | .short => 2
  | .long => 4
  | .longlong => 8
  | .timestamp => 8
  | .shortstr => 1
  | .longstr => 4
  | .table => 4

/-- The bits in the last byte, after one more. -/
def nextBit (bitOffset : Nat) : Nat :=
  if bitOffset = 0 ∨ bitOffset = 8 then 1 else bitOffset + 1

/-- The bits in the last byte, after some fields. -/
def bitsAfter : Nat → List FieldType → Nat
  | bitOffset, [] => bitOffset
  | bitOffset, .bit :: types => bitsAfter (nextBit bitOffset) types
  | _, _ :: types => bitsAfter 0 types

/-- The least number of bytes that fields add. -/
def minSize : Nat → List FieldType → Nat
  | _, [] => 0
  | bitOffset, .bit :: types =>
      (if bitOffset = 0 ∨ bitOffset = 8 then 1 else 0) +
        minSize (nextBit bitOffset) types
  | _, type :: types => width type + minSize 0 types

/-- No byte has to hold more than eight bits. -/
def BitRuns : Nat → List FieldType → Prop
  | _, [] => True
  | bitOffset, .bit :: types => bitOffset < 8 ∧ BitRuns (bitOffset + 1) types
  | _, _ :: types => BitRuns 0 types

theorem cons_of_ne {type : FieldType} (h : type ≠ .bit) (bitOffset : Nat)
    (types : List FieldType) :
    bitsAfter bitOffset (type :: types) = bitsAfter 0 types ∧
      minSize bitOffset (type :: types) = width type + minSize 0 types ∧
      (BitRuns bitOffset (type :: types) ↔ BitRuns 0 types) := by
  cases type with
  | bit => exact (h rfl).elim
  | octet | short | long | longlong | timestamp | shortstr | longstr | table =>
      exact ⟨rfl, rfl, Iff.rfl⟩

end FieldType

namespace FieldValue

/-- What a value adds to the least size of its type. -/
def extra : FieldValue → Nat
  | .shortstr value => value.length
  | .longstr value => value.length
  | .table value =>
      (value.toList.flatMap fun entry => tableEntry entry.1 entry.2).length
  | _ => 0

theorem eq_bit (h : value.type = .bit) : ∃ b, value = .bit b := by
  cases value with
  | bit b => exact ⟨b, rfl⟩
  | octet | short | long | longlong | timestamp | shortstr | longstr | table =>
      cases h

end FieldValue

open FieldType

theorem length_fieldBytes (value : FieldValue) :
    (fieldBytes value).length = value.type.width + value.extra := by
  cases value with
  | bit | octet | short | long | longlong | timestamp => rfl
  | shortstr value => exact Nat.add_comm _ _
  | longstr value => exact List.length_append
  | table value => exact List.length_append

theorem putFields_cons_of_ne (h : value.type ≠ .bit) (values : List FieldValue)
    (bitOffset : Nat) (args : List UInt8) :
    putFields (value :: values) bitOffset args =
      (putField args value).bind (putFields values 0) := by
  cases value with
  | bit => exact (h rfl).elim
  | octet | short | long | longlong | timestamp | shortstr | longstr | table =>
      rfl

theorem getFields_cons_of_ne {type : FieldType} (h : type ≠ .bit)
    (args : List UInt8) (types : List FieldType) (bitOffset offset : Nat) :
    getFields args (type :: types) bitOffset offset =
      (getField args (if 0 < bitOffset then offset + 1 else offset) type).bind
        fun field => (getFields args types 0 field.2).map (field.1 :: ·) := by
  cases type with
  | bit => exact (h rfl).elim
  | octet | short | long | longlong | timestamp | shortstr | longstr | table =>
      simp only [getFields, Option.bind_eq_bind, Option.pure_def,
        Option.map_eq_bind]
      rfl

theorem putField_eq_some {args out : List UInt8} :
    putField args value = some out ↔
      args.length + (fieldBytes value).length ≤ frameMinSize ∧
        args ++ fieldBytes value = out := by
  rw [putField, Option.ite_none_right_eq_some, Option.some.injEq]

theorem putFields_append (values values' : List FieldValue) (bitOffset : Nat)
    (args : List UInt8) :
    putFields (values ++ values') bitOffset args =
      (putFields values bitOffset args).bind
        (putFields values' (bitsAfter bitOffset
          (values.map FieldValue.type))) := by
  induction values generalizing bitOffset args with
  | nil => rfl
  | cons value values ih =>
      by_cases hbit : value.type = .bit
      · obtain ⟨value, rfl⟩ := FieldValue.eq_bit hbit
        simp only [List.cons_append, putFields, List.map_cons,
          FieldValue.type, bitsAfter, nextBit, ih]
        split
        · split <;> rfl
        · rfl
      · rw [List.cons_append, putFields_cons_of_ne hbit,
          putFields_cons_of_ne hbit, List.map_cons,
          (cons_of_ne hbit bitOffset _).1, Option.bind_assoc]
        congr 1
        funext args'
        exact ih 0 args'

theorem length_putFields {args out : List UInt8}
    (hopen : 0 < bitOffset → args ≠ [])
    (h : putFields values bitOffset args = some out) :
    out.length = args.length + minSize bitOffset (values.map FieldValue.type) +
      (values.map FieldValue.extra).sum := by
  induction values generalizing bitOffset args with
  | nil =>
      cases h
      rfl
  | cons value values ih =>
      by_cases hbit : value.type = .bit
      · obtain ⟨value, rfl⟩ := FieldValue.eq_bit hbit
        simp only [List.map_cons, FieldValue.type, FieldValue.extra,
          minSize, nextBit, List.sum_cons]
        rw [putFields] at h
        split at h
        · next hfull =>
            rw [Option.ite_none_right_eq_some] at h
            rw [ih (fun _ => by simp) h.2, if_pos hfull, if_pos hfull,
              List.length_append, List.length_singleton]
            omega
        · next hfull =>
            have hne := hopen (by omega)
            have hpos := List.length_pos_iff.mpr hne
            rw [ih (fun _ => by simp) h, if_neg hfull, if_neg hfull,
              List.length_append, List.length_dropLast,
              List.length_singleton]
            omega
      · rw [putFields_cons_of_ne hbit, Option.bind_eq_some_iff] at h
        obtain ⟨args', hput, h⟩ := h
        obtain ⟨_, rfl⟩ := putField_eq_some.mp hput
        rw [ih (fun hpos => (Nat.lt_irrefl 0 hpos).elim) h, List.map_cons,
          List.map_cons, (cons_of_ne hbit bitOffset _).2.1, List.sum_cons,
          List.length_append, length_fieldBytes]
        omega

theorem putFields_fits (hopen : 0 < bitOffset → args ≠ [])
    (h : args.length + minSize bitOffset (values.map FieldValue.type) +
      (values.map FieldValue.extra).sum ≤ frameMinSize) :
    ∃ out, putFields values bitOffset args = some out := by
  induction values generalizing bitOffset args with
  | nil => exact ⟨args, rfl⟩
  | cons value values ih =>
      rw [List.map_cons, List.map_cons, List.sum_cons] at h
      by_cases hbit : value.type = .bit
      · obtain ⟨value, rfl⟩ := FieldValue.eq_bit hbit
        simp only [FieldValue.type, FieldValue.extra, minSize,
          nextBit] at h
        rw [putFields]
        split
        · next hfull =>
            rw [if_pos hfull, if_pos hfull] at h
            rw [if_pos (by omega)]
            apply ih (fun _ => by simp)
            rw [List.length_append, List.length_singleton]
            omega
        · next hfull =>
            rw [if_neg hfull, if_neg hfull] at h
            have hne := hopen (by omega)
            have hpos := List.length_pos_iff.mpr hne
            apply ih (fun _ => by simp)
            rw [List.length_append, List.length_dropLast,
              List.length_singleton]
            omega
      · rw [(cons_of_ne hbit bitOffset _).2.1] at h
        have hbytes := length_fieldBytes value
        rw [putFields_cons_of_ne hbit,
          putField_eq_some.mpr ⟨by omega, rfl⟩, Option.bind_some]
        apply ih (fun hpos => (Nat.lt_irrefl 0 hpos).elim)
        rw [List.length_append]
        omega

/-! ## Fields before the first table -/

/-- Where the next field begins, or the byte of bits that is not full. -/
def place (bitOffset : Nat) (args : List UInt8) : Nat :=
  if 0 < bitOffset then args.length - 1 else args.length

/-- A byte that is not full has no bits in it but those that were put. -/
def Open (bitOffset : Nat) (args : List UInt8) : Prop :=
  0 < bitOffset → ∃ front byte, args = front ++ [byte] ∧
    ∀ i, bitOffset ≤ i → byte.toNat.testBit i = false

/-- A buffer to which fields have been added: of a byte that was not full only
the bits are the same that had been put. -/
def Extends (bitOffset : Nat) (args out : List UInt8) : Prop :=
  if 0 < bitOffset then
    ∃ byte more, out = args.dropLast ++ byte :: more ∧
      ∀ i, i < bitOffset →
        byte.toNat.testBit i = (args.getLastD 0).toNat.testBit i
  else args <+: out

theorem Extends.refl (h : Open bitOffset args) :
    Extends bitOffset args args := by
  unfold Extends
  split
  · next hpos =>
      obtain ⟨front, byte, rfl, _⟩ := h hpos
      exact ⟨byte, [], by rw [List.dropLast_concat], by simp⟩
  · exact List.prefix_rfl

theorem open_zero (args : List UInt8) : Open 0 args :=
  fun hpos => (Nat.lt_irrefl 0 hpos).elim

/-- The place of a field that begins with a byte of its own. -/
theorem place_succ (h : Open bitOffset args) :
    (if 0 < bitOffset then place bitOffset args + 1
      else place bitOffset args) = args.length := by
  unfold place
  split
  · next hpos =>
      obtain ⟨front, byte, rfl, _⟩ := h hpos
      simp
  · rfl

theorem extends_append (h : Open bitOffset args) (more : List UInt8) :
    Extends bitOffset args (args ++ more) := by
  unfold Extends
  split
  · next hpos =>
      obtain ⟨front, byte, rfl, _⟩ := h hpos
      exact ⟨byte, more, by simp, by simp⟩
  · exact List.prefix_append _ _

theorem testBit_bitByte (value : Bool) (h : bitOffset < 8) (i : Nat) :
    (bitByte value bitOffset).toNat.testBit i =
      (decide (i = bitOffset) && value) := by
  have hlt : 2 ^ bitOffset < 2 ^ 8 := Nat.pow_lt_pow_right (by decide) h
  cases value with
  | false => simp [bitByte]
  | true =>
      rw [bitByte, Bool.toNat_true, Nat.one_shiftLeft, UInt8.toNat_ofNat',
        Nat.mod_eq_of_lt hlt, Nat.testBit_two_pow, Bool.and_true]
      simp only [eq_comm]

/-- A bit is put into a new byte or into the last one. -/
theorem putFields_bit {value : Bool} {args mid : List UInt8}
    (hlt : bitOffset < 8) (hopen : Open bitOffset args)
    (hput : putFields (.bit value :: values) bitOffset args = some mid) :
    ∃ front byte, putFields values (bitOffset + 1) (front ++ [byte]) =
        some mid ∧
      place bitOffset args = front.length ∧
      Open (bitOffset + 1) (front ++ [byte]) ∧
      byte.toNat.testBit bitOffset = value ∧
      ∀ out, Extends (bitOffset + 1) (front ++ [byte]) out →
        Extends bitOffset args out := by
  rw [putFields] at hput
  rcases Nat.eq_zero_or_pos bitOffset with rfl | hpos
  · rw [if_pos (.inl rfl), Option.ite_none_right_eq_some] at hput
    refine ⟨args, bitByte value 0, hput.2, rfl, ?_, ?_, ?_⟩
    · intro _
      refine ⟨args, bitByte value 0, rfl, ?_⟩
      intro i hi
      rw [testBit_bitByte value hlt, decide_eq_false (by omega),
        Bool.false_and]
    · rw [testBit_bitByte value hlt, decide_eq_true rfl, Bool.true_and]
    · intro out hout
      obtain ⟨byte, more, rfl, _⟩ := hout
      rw [List.dropLast_concat]
      exact List.prefix_append _ _
  · rw [if_neg (by omega)] at hput
    obtain ⟨front, byte, rfl, hclear⟩ := hopen hpos
    rw [List.dropLast_concat, List.getLastD_concat] at hput
    have hbits : ∀ i, (byte ||| bitByte value bitOffset).toNat.testBit i =
        (byte.toNat.testBit i || (decide (i = bitOffset) && value)) := by
      intro i
      rw [UInt8.toNat_or, Nat.testBit_or, testBit_bitByte value hlt]
    refine ⟨front, _, hput, ?_, ?_, ?_, ?_⟩
    · rw [place, if_pos hpos, List.length_append, List.length_singleton,
        Nat.add_sub_cancel]
    · intro _
      refine ⟨front, _, rfl, ?_⟩
      intro i hi
      rw [hbits, hclear i (by omega), decide_eq_false (by omega)]
      rfl
    · rw [hbits, hclear bitOffset (Nat.le_refl _), decide_eq_true rfl]
      simp
    · intro out hout
      obtain ⟨last, more, rfl, hlast⟩ := hout
      rw [Extends, if_pos hpos, List.dropLast_concat]
      refine ⟨last, more, by rw [List.dropLast_concat], ?_⟩
      intro i hi
      rw [hlast i (by omega), List.getLastD_concat, List.getLastD_concat,
        hbits, decide_eq_false (by omega), Bool.false_and, Bool.or_false]

theorem getFields_bit (hlt : bitOffset < 8) (hoffset : offset < args.length)
    (types : List FieldType) :
    getFields args (.bit :: types) bitOffset offset =
      (getFields args types (bitOffset + 1) offset).map
        (.bit (((args.drop offset).headD 0).toNat.testBit bitOffset) :: ·) := by
  have hadvance : advance args offset 1 = some (offset + 1) := by
    rw [advance, if_pos (Nat.succ_le_of_lt hoffset)]
  have hne : bitOffset ≠ 8 := Nat.ne_of_lt hlt
  simp only [getFields, if_neg hne, hadvance, Option.bind_eq_bind,
    Option.pure_def, Option.map_eq_bind]
  split <;> rfl

theorem nextBit_of_lt (h : bitOffset < 8) :
    nextBit bitOffset = bitOffset + 1 := by
  unfold nextBit
  split <;> omega

theorem putFields_extends {args mid : List UInt8}
    (hruns : BitRuns bitOffset (values.map FieldValue.type))
    (hopen : Open bitOffset args)
    (hput : putFields values bitOffset args = some mid) :
    Open (bitsAfter bitOffset (values.map FieldValue.type)) mid ∧
      ∀ out, Extends (bitsAfter bitOffset (values.map FieldValue.type)) mid
        out → Extends bitOffset args out := by
  induction values generalizing bitOffset args with
  | nil =>
      cases hput
      exact ⟨hopen, fun out hout => hout⟩
  | cons value values ih =>
      by_cases hbit : value.type = .bit
      · obtain ⟨value, rfl⟩ := FieldValue.eq_bit hbit
        obtain ⟨hlt, hruns⟩ := hruns
        obtain ⟨front, byte, hput, _, hopen', _, hextends⟩ :=
          putFields_bit hlt hopen hput
        obtain ⟨hopen'', hextends'⟩ := ih hruns hopen' hput
        simp only [List.map_cons, FieldValue.type, bitsAfter,
          nextBit_of_lt hlt]
        exact ⟨hopen'', fun out hout => hextends out (hextends' out hout)⟩
      · rw [List.map_cons, (cons_of_ne hbit bitOffset _).2.2] at hruns
        rw [List.map_cons, (cons_of_ne hbit bitOffset _).1]
        rw [putFields_cons_of_ne hbit, Option.bind_eq_some_iff] at hput
        obtain ⟨args', hfield, hput⟩ := hput
        obtain ⟨_, rfl⟩ := putField_eq_some.mp hfield
        obtain ⟨hopen', hextends⟩ := ih hruns (open_zero _) hput
        refine ⟨hopen', ?_⟩
        intro out hout
        obtain ⟨rest, rfl⟩ : args ++ fieldBytes value <+: out :=
          hextends out hout
        rw [List.append_assoc]
        exact extends_append hopen _

/-- Taking the fields that have been put, up to the first table. -/
theorem getFields_initial (more : List FieldType) {args mid out : List UInt8}
    (htables : ∀ value ∈ values, value.type ≠ .table)
    (hsound : ∀ value ∈ values, value.Sound)
    (hruns : BitRuns bitOffset (values.map FieldValue.type))
    (hopen : Open bitOffset args)
    (hput : putFields values bitOffset args = some mid)
    (hout : Extends (bitsAfter bitOffset (values.map FieldValue.type)) mid
      out) :
    getFields out (values.map FieldValue.type ++ more) bitOffset
        (place bitOffset args) =
      (getFields out more (bitsAfter bitOffset (values.map FieldValue.type))
        (place (bitsAfter bitOffset (values.map FieldValue.type)) mid)).map
        (values ++ ·) := by
  induction values generalizing bitOffset args with
  | nil =>
      cases hput
      simp only [List.map_nil, List.nil_append, bitsAfter]
      exact Option.map_id'.symm
  | cons value values ih =>
      rw [List.forall_mem_cons] at htables hsound
      have ih := fun {bitOffset args} => @ih bitOffset args htables.2 hsound.2
      by_cases hbit : value.type = .bit
      · obtain ⟨value, rfl⟩ := FieldValue.eq_bit hbit
        obtain ⟨hlt, hruns⟩ := hruns
        obtain ⟨front, byte, hput, hplace, hopen', hvalue, _⟩ :=
          putFields_bit hlt hopen hput
        simp only [List.map_cons, FieldValue.type, bitsAfter,
          nextBit_of_lt hlt] at hout ⊢
        have hget := ih hruns hopen' hput hout
        have hplace' : place (bitOffset + 1) (front ++ [byte]) =
            front.length := by
          rw [place, if_pos (Nat.succ_pos _), List.length_append,
            List.length_singleton, Nat.add_sub_cancel]
        obtain ⟨byte', rest, rfl, hbyte⟩ :=
          (putFields_extends hruns hopen' hput).2 out hout
        rw [List.dropLast_concat] at hget ⊢
        rw [hplace'] at hget
        rw [List.cons_append, hplace, getFields_bit hlt (by simp), hget,
          List.drop_left, List.headD_cons, hbyte _ (Nat.lt_succ_self _),
          List.getLastD_concat, hvalue, Option.map_map]
        rfl
      · rw [List.map_cons, (cons_of_ne hbit bitOffset _).2.2] at hruns
        rw [List.map_cons, (cons_of_ne hbit bitOffset _).1] at hout ⊢
        rw [putFields_cons_of_ne hbit, Option.bind_eq_some_iff] at hput
        obtain ⟨args', hfield, hput⟩ := hput
        obtain ⟨hfits, rfl⟩ := putField_eq_some.mp hfield
        have hget : getFields out (values.map FieldValue.type ++ more) 0
            (args ++ fieldBytes value).length = _ :=
          ih hruns (open_zero _) hput hout
        obtain ⟨rest, rfl⟩ : args ++ fieldBytes value <+: out :=
          (putFields_extends hruns (open_zero _) hput).2 out hout
        have hkeys : value.ShortKeys := by
          cases value with
          | table => exact (htables.1 rfl).elim
          | bit | octet | short | long | longlong | timestamp | shortstr
          | longstr => exact trivial
        have hvalue := getField_append hbit hsound.1 hkeys (by omega) args rest
        rw [if_neg htables.1, ← List.append_assoc] at hvalue
        rw [List.cons_append, getFields_cons_of_ne hbit, place_succ hopen,
          hvalue, Option.bind_some, hget, Option.map_map]
        rfl

/-! ## Zeros -/

namespace FieldType

/-- The value that is all zeros. -/
def zero : FieldType → FieldValue
  | .bit => .bit false
  | .octet => .octet 0
  | .short => .short 0
  | .long => .long 0
  | .longlong => .longlong 0
  | .timestamp => .timestamp 0
  | .shortstr => .shortstr []
  | .longstr => .longstr []
  | .table => .table ∅

/-- A value that is not, and as short as possible. -/
def nonzero : FieldType → FieldValue
  | .bit => .bit true
  | .octet => .octet 1
  | .short => .short 1
  | .long => .long 1
  | .longlong => .longlong 1
  | .timestamp => .timestamp 1
  | .shortstr => .shortstr [0]
  | .longstr => .longstr [0]
  | .table => .table ((∅ : FieldTable).insert [] [])

/-- What a value needs beyond the least size when it is not zero. -/
def spare : FieldType → Nat
  | .shortstr => 1
  | .longstr => 1
  | .table => 6
  | _ => 0

theorem type_zero (type : FieldType) : type.zero.type = type := by
  cases type <;> rfl

theorem type_nonzero (type : FieldType) : type.nonzero.type = type := by
  cases type <;> rfl

theorem map_type_zero (types : List FieldType) :
    (types.map zero).map FieldValue.type = types := by
  rw [List.map_map]
  exact (List.map_congr_left fun type _ => type_zero type).trans
    (List.map_id types)

theorem toList_singleton :
    ((∅ : FieldTable).insert [] []).toList = [([], [])] := by
  decide +kernel

theorem extra_nonzero (type : FieldType) : type.nonzero.extra = type.spare := by
  cases type with
  | table => simp only [nonzero, FieldValue.extra, toList_singleton, spare]; rfl
  | bit | octet | short | long | longlong | timestamp | shortstr | longstr =>
      rfl

theorem fieldBytes_zero (type : FieldType) :
    fieldBytes type.zero = List.replicate type.width 0 := by
  cases type with
  | table => simp [zero, fieldBytes, tableBytes, width]; rfl
  | bit | octet | short | long | longlong | timestamp | shortstr | longstr =>
      rfl

theorem toList_empty : (∅ : FieldTable).toList = [] :=
  Std.ExtTreeMap.toList_eq_nil_iff.mpr rfl

theorem zero_sound (type : FieldType) :
    type.zero.Sound ∧ type.zero.ShortKeys := by
  cases type with
  | shortstr => exact ⟨Nat.zero_le _, trivial⟩
  | table =>
      refine ⟨trivial, ?_⟩
      intro entry hmem
      rw [toList_empty] at hmem
      cases hmem
  | bit | octet | short | long | longlong | timestamp | longstr =>
      exact ⟨trivial, trivial⟩

theorem nonzero_sound (type : FieldType) :
    type.nonzero.Sound ∧ type.nonzero.ShortKeys := by
  cases type with
  | shortstr => exact ⟨Nat.le_of_ble_eq_true rfl, trivial⟩
  | table =>
      refine ⟨trivial, ?_⟩
      intro entry hmem
      rw [toList_singleton, List.mem_singleton] at hmem
      rw [hmem]
      exact Nat.zero_le _
  | bit | octet | short | long | longlong | timestamp | longstr =>
      exact ⟨trivial, trivial⟩

theorem nonzero_ne_zero (type : FieldType) : type.nonzero ≠ type.zero := by
  cases type with
  | table =>
      intro h
      injection h with h
      have hnil := Std.ExtTreeMap.toList_eq_nil_iff.mpr h
      rw [toList_singleton] at hnil
      cases hnil
  | bit | octet | short | long | longlong | timestamp | shortstr | longstr =>
      simp [nonzero, zero]

end FieldType

/-- A value that is not zero needs the room. -/
theorem spare_le_extra (h : value ≠ value.type.zero) :
    value.type.spare ≤ value.extra := by
  cases value with
  | shortstr value | longstr value =>
      have hne : value ≠ [] := by
        rintro rfl
        exact h rfl
      exact List.length_pos_iff.mpr hne
  | table value =>
      have hne : value.toList ≠ [] := by
        intro hnil
        apply h
        rw [Std.ExtTreeMap.toList_eq_nil_iff] at hnil
        rw [hnil]
        rfl
      obtain ⟨entry, entries, hcons⟩ := List.exists_cons_of_ne_nil hne
      have hput : (putUint32 (UInt32.ofNat entry.2.length)).length = 4 := rfl
      simp only [FieldValue.extra, FieldValue.type, spare, hcons,
        List.flatMap_cons, List.length_append, tableEntry, shortstr,
        List.length_cons, List.length_nil, hput]
      omega
  | bit | octet | short | long | longlong | timestamp => exact Nat.zero_le _

theorem putFields_zeros {args out : List UInt8}
    (hopen : 0 < bitOffset → args ≠ [])
    (h : putFields (types.map zero) bitOffset args = some out) :
    out = args ++ List.replicate (minSize bitOffset types) 0 := by
  induction types generalizing bitOffset args with
  | nil =>
      cases h
      exact (List.append_nil _).symm
  | cons type types ih =>
      by_cases hbit : type = .bit
      · subst hbit
        simp only [List.map_cons, zero, putFields] at h
        simp only [minSize, nextBit]
        split at h
        · next hfull =>
            rw [Option.ite_none_right_eq_some] at h
            rw [ih (fun _ => by simp) h.2, if_pos hfull, if_pos hfull,
              ← List.replicate_append_replicate, ← List.append_assoc]
            rfl
        · next hfull =>
            have hne := hopen (by omega)
            have hbyte : bitByte false bitOffset = 0 := by simp [bitByte]
            rw [hbyte, UInt8.or_zero, List.getLastD_eq_getLast?,
              List.getLast?_eq_some_getLast hne, Option.getD_some,
              List.dropLast_concat_getLast hne] at h
            rw [ih (fun _ => hne) h, if_neg hfull, if_neg hfull,
              Nat.zero_add]
      · have hne : type.zero.type ≠ .bit := by
          rw [type_zero]
          exact hbit
        rw [List.map_cons, putFields_cons_of_ne hne,
          Option.bind_eq_some_iff] at h
        obtain ⟨args', hfield, h⟩ := h
        obtain ⟨_, rfl⟩ := putField_eq_some.mp hfield
        rw [ih (fun hpos => (Nat.lt_irrefl 0 hpos).elim) h,
          (cons_of_ne hbit bitOffset _).2.1,
          ← List.replicate_append_replicate, fieldBytes_zero, List.append_assoc]

theorem zeros_drop {n k : Nat}
    (h : List.replicate (n + k) 0 <+: args.drop offset) :
    List.replicate k 0 <+: args.drop (offset + n) := by
  obtain ⟨more, hmore⟩ := h
  rw [← List.drop_drop, ← hmore, ← List.replicate_append_replicate,
    List.append_assoc, List.drop_left' List.length_replicate]
  exact List.prefix_append _ _

theorem zeros_take {n k : Nat} (hle : k ≤ n) (h : List.replicate n 0 <+: args) :
    List.replicate k 0 <+: args := by
  refine List.IsPrefix.trans ?_ h
  rw [← Nat.add_sub_cancel' hle, ← List.replicate_append_replicate]
  exact List.prefix_append _ _

theorem getField_zero {type : FieldType} (hbit : type ≠ .bit)
    (h : List.replicate type.width 0 <+: args.drop offset) :
    getField args offset type =
      some (type.zero, if type = .table then offset
        else offset + type.width) := by
  obtain ⟨more, hmore⟩ := h
  have hwidth : 0 < type.width := by
    cases type with
    | bit => exact (hbit rfl).elim
    | octet | short | long | longlong | timestamp | shortstr | longstr
    | table => decide
  have hlength : (args.take offset).length = offset := by
    have hle := congrArg List.length hmore
    rw [List.length_append, List.length_replicate, List.length_drop] at hle
    rw [List.length_take]
    omega
  have hargs : args.take offset ++ (fieldBytes type.zero ++ more) = args := by
    rw [fieldBytes_zero, hmore, List.take_append_drop]
  have hsmall : (fieldBytes type.zero).length ≤ frameMinSize := by
    rw [fieldBytes_zero, List.length_replicate]
    cases type <;> decide
  have hget := @getField_append type.zero
    (by rw [type_zero]; exact hbit) type.zero_sound.1 type.zero_sound.2 hsmall
    (args.take offset) more
  rw [hargs, type_zero, List.length_append, hlength, fieldBytes_zero,
    List.length_replicate] at hget
  exact hget

theorem getFields_zeros (hruns : BitRuns bitOffset types)
    (h : List.replicate ((if 0 < bitOffset then 1 else 0) +
      minSize bitOffset types) 0 <+: args.drop offset) :
    getFields args types bitOffset offset = some (types.map zero) := by
  induction types generalizing bitOffset offset with
  | nil => rfl
  | cons type types ih =>
      by_cases hbit : type = .bit
      · subst hbit
        obtain ⟨hlt, hruns⟩ := hruns
        have hrun : List.replicate (1 + minSize (bitOffset + 1) types) 0 <+:
            args.drop offset := by
          refine zeros_take ?_ h
          rw [minSize, nextBit_of_lt hlt]
          split <;> split <;> omega
        have hread := ih hruns
          (by rw [if_pos (Nat.succ_pos bitOffset)]; exact hrun)
        obtain ⟨more, hmore⟩ := zeros_take (Nat.le_add_right 1 _) hrun
        have hoffset : offset < args.length := by
          have hle := congrArg List.length hmore
          rw [List.length_append, List.length_drop,
            List.length_replicate] at hle
          omega
        rw [getFields_bit hlt hoffset, hread, ← hmore]
        simp [zero]
      · rw [(cons_of_ne hbit bitOffset _).2.2] at hruns
        rw [(cons_of_ne hbit bitOffset _).2.1] at h
        have hrun : List.replicate (type.width + minSize 0 types) 0 <+:
            args.drop (if 0 < bitOffset then offset + 1 else offset) := by
          split at h
          · next hpos =>
              rw [if_pos hpos]
              exact zeros_drop h
          · next hpos =>
              rw [if_neg hpos]
              rw [Nat.zero_add] at h
              exact h
        rw [getFields_cons_of_ne hbit,
          getField_zero hbit (zeros_take (Nat.le_add_right _ _) hrun),
          Option.bind_some, List.map_cons]
        have hread : ∀ {next}, List.replicate (minSize 0 types) 0 <+:
            args.drop next → getFields args types 0 next =
              some (types.map zero) := by
          intro next hnext
          apply ih hruns
          rw [if_neg (Nat.lt_irrefl 0), Nat.zero_add]
          exact hnext
        split
        · rw [hread (zeros_take (Nat.le_add_left _ _) hrun)]
          rfl
        · rw [hread (zeros_drop hrun)]
          rfl

/-! ## What can be taken at all -/

/-- The size of a key comes from one byte. -/
theorem getFieldTable_shortKeys {table : FieldTable}
    (h : getFieldTable args offset = some table) :
    (FieldValue.table table).ShortKeys := by
  obtain ⟨fields, hfilled, rfl⟩ := getFieldTable_iff.mp h
  rintro ⟨name, value⟩ hmem
  rw [Std.ExtTreeMap.mem_toList_iff_getElem?_eq_some, getElem?_foldl_insert] at hmem
  obtain ⟨f, hlast, -⟩ := Option.map_eq_some_iff.mp hmem
  obtain ⟨hf, rfl⟩ := mem_of_lastOf hlast
  have hcomplete := hfilled.complete f hf
  cases f with
  | string name size value => exact hcomplete.1
  | integer name value => exact hcomplete.1

theorem getField_shortKeys {next : Nat} {type : FieldType}
    (h : getField args offset type = some (value, next)) :
    value.ShortKeys := by
  cases type with
  | bit => cases h
  | table =>
      obtain ⟨table, htable, heq⟩ := Option.map_eq_some_iff.mp h
      cases heq
      exact getFieldTable_shortKeys htable
  | octet | short | long | longlong | timestamp | shortstr | longstr =>
      obtain ⟨_, _, heq⟩ := Option.map_eq_some_iff.mp h
      cases heq
      exact trivial

theorem getFields_cons (args : List UInt8) (type : FieldType)
    (bitOffset offset : Nat) :
    ∃ first : Option (FieldValue × Nat × Nat),
      (∀ field, first = some field → field.1.ShortKeys) ∧
      ∀ types, getFields args (type :: types) bitOffset offset =
        first.bind fun field =>
          (getFields args types field.2.1 field.2.2).map (field.1 :: ·) := by
  by_cases hbit : type = .bit
  · subst hbit
    obtain ⟨next, hnext⟩ : ∃ next, (if bitOffset = 8 then 0 else bitOffset) =
      next := ⟨_, rfl⟩
    let value := FieldValue.bit
      (((args.drop offset).headD 0).toNat.testBit next)
    refine ⟨if next = 0 then
        (advance args offset 1).map fun _ => (value, next + 1, offset)
      else some (value, next + 1, offset), ?_, ?_⟩
    · intro field hfield
      split at hfield
      · obtain ⟨_, _, rfl⟩ := Option.map_eq_some_iff.mp hfield
        exact trivial
      · cases hfield
        exact trivial
    · intro types
      simp only [getFields, Option.bind_eq_bind, Option.pure_def,
        Option.map_eq_bind, hnext]
      split
      · rw [Option.bind_assoc]
        rfl
      · rfl
  · refine ⟨(getField args (if 0 < bitOffset then offset + 1 else offset)
        type).map fun field => (field.1, 0, field.2), ?_, ?_⟩
    · intro field hfield
      obtain ⟨⟨value, next⟩, hget, rfl⟩ := Option.map_eq_some_iff.mp hfield
      exact getField_shortKeys hget
    · intro types
      rw [getFields_cons_of_ne hbit, Option.bind_map]
      rfl

theorem getFields_shortKeys
    (h : getFields args types bitOffset offset = some values) :
    ∀ value ∈ values, value.ShortKeys := by
  induction types generalizing bitOffset offset values with
  | nil =>
      cases h
      simp
  | cons type types ih =>
      obtain ⟨first, hkeys, hcons⟩ := getFields_cons args type bitOffset offset
      rw [hcons, Option.bind_eq_some_iff] at h
      obtain ⟨field, hfield, h⟩ := h
      obtain ⟨rest, hrest, rfl⟩ := Option.map_eq_some_iff.mp h
      exact List.forall_mem_cons.mpr ⟨hkeys field hfield, ih hrest⟩

theorem getFields_of_append {types more : List FieldType}
    (h : getFields args (types ++ more) bitOffset offset = some values) :
    getFields args types bitOffset offset =
      some (values.take types.length) := by
  induction types generalizing bitOffset offset values with
  | nil => rfl
  | cons type types ih =>
      obtain ⟨first, _, hcons⟩ := getFields_cons args type bitOffset offset
      rw [List.cons_append, hcons, Option.bind_eq_some_iff] at h
      obtain ⟨field, hfield, h⟩ := h
      obtain ⟨rest, hrest, rfl⟩ := Option.map_eq_some_iff.mp h
      rw [hcons, hfield, Option.bind_some, ih hrest]
      rfl

end ZeroMQ
