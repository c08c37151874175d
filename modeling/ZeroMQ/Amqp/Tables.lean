import Mathlib.Data.List.Induction
import ZeroMQ.Amqp.Methods

/-!
# Strings and tables of AMQP

What the unmarshaller takes from a buffer of arguments, said of the bytes at the
offset.  A table is taken exactly if its bytes are complete entries; an entry is
a string or an integer.

`get_field_table` (`amqp/amqp.gsl`) computes with numbers of type `size_t`, and
its assertions do, too.  `ArgBuffer.getFieldTable` is the function with the
width of that type; a byte that is read outside of the buffer is an outcome of
its own.  As long as no sum wraps it does what `getFieldTable` does.  An integer
is stored in 16 bits on the way, so that a table holds another number if there
are more.

## Main definitions

* `TableField`, `Filled` — the entries of a table, and the bytes they fill.
* `ArgBuffer.getFieldTable` — `get_field_table` for a `size_t` of any width.
* `ArgBuffer.Exact` — what it is for.

## Main results

* `getShortstr_iff`, `getLongstr_iff`, `getEntry_iff`, `getFieldTable_iff` —
  what is taken, and when.
* `Filled.unique` — the bytes of a table have one reading.
* `ArgBuffer.getFieldTable_eq` — the two parsers agree if no sum wraps.
* `field_table_exact_iff` — when the parser is exact.
-/

namespace ZeroMQ

open Amqp

variable {args : List UInt8} {offset : Nat} {next : Nat} {value : List UInt8}
  {table : FieldTable}

/-! ## Bytes at an offset -/

theorem advance_iff {n : Nat} :
    advance args offset n = some next ↔
      next = offset + n ∧ next ≤ args.length := by
  rw [advance, Option.ite_none_right_eq_some, Option.some.injEq]
  constructor
  · rintro ⟨hle, rfl⟩
    exact ⟨rfl, hle⟩
  · rintro ⟨rfl, hle⟩
    exact ⟨hle, rfl⟩

theorem append_prefix_drop {front back : List UInt8} :
    front ++ back <+: args.drop offset ↔
      front <+: args.drop offset ∧
        back <+: args.drop (offset + front.length) := by
  constructor
  · rintro ⟨more, hmore⟩
    rw [List.append_assoc] at hmore
    refine ⟨⟨back ++ more, hmore⟩, more, ?_⟩
    rw [← List.drop_drop, ← hmore, List.drop_left]
  · rintro ⟨⟨more, hmore⟩, more', hmore'⟩
    rw [← List.drop_drop, ← hmore, List.drop_left] at hmore'
    refine ⟨more', ?_⟩
    rw [List.append_assoc, hmore', hmore]

theorem singleton_prefix_drop {b : UInt8} :
    [b] <+: args.drop offset ↔
      offset + 1 ≤ args.length ∧ (args.drop offset).headD 0 = b := by
  constructor
  · rintro ⟨more, hmore⟩
    have hlength := congrArg List.length hmore
    rw [List.length_append, List.length_singleton, List.length_drop] at hlength
    refine ⟨by omega, ?_⟩
    rw [← hmore]
    rfl
  · rintro ⟨hle, hb⟩
    have hlt : offset < args.length := hle
    rw [List.drop_eq_getElem_cons hlt] at hb ⊢
    exact ⟨_, by rw [← hb]; rfl⟩

/-! ## Strings -/

/-- `k` bytes that tell a size, and a string of that size. -/
theorem counted_iff {k size : Nat} (hk : 0 < k) :
    ((advance args offset k).bind fun start =>
      (advance args start size).bind fun next =>
        some ((args.drop start).take size, next)) = some (value, next) ↔
      ∃ head, head.length = k ∧ head ++ value <+: args.drop offset ∧
        value.length = size ∧ next = offset + (k + value.length) := by
  simp only [Option.bind_eq_some_iff, Option.some.injEq, Prod.mk.injEq,
    advance_iff]
  constructor
  · rintro ⟨_, ⟨rfl, hk'⟩, _, ⟨rfl, hsize⟩, rfl, rfl⟩
    have hlength : ((args.drop (offset + k)).take size).length = size := by
      rw [List.length_take, List.length_drop]
      omega
    refine ⟨(args.drop offset).take k, ?_, ?_, hlength, ?_⟩
    · rw [List.length_take, List.length_drop]
      omega
    · rw [← List.drop_drop, ← List.take_add]
      exact List.take_prefix _ _
    · rw [hlength, Nat.add_assoc]
  · rintro ⟨head, hhead, hpre, rfl, rfl⟩
    have hle := hpre.length_le
    rw [List.length_append, List.length_drop, hhead] at hle
    obtain ⟨_, hvalue⟩ := append_prefix_drop.mp hpre
    rw [hhead] at hvalue
    refine ⟨_, ⟨rfl, by omega⟩, _, ⟨rfl, by omega⟩, ?_, by omega⟩
    exact (List.prefix_iff_eq_take.mp hvalue).symm

theorem getShortstr_iff {name : List UInt8} :
    getShortstr args offset = some (name, next) ↔
      name.length ≤ 0xff ∧ shortstr name <+: args.drop offset ∧
        next = offset + (shortstr name).length := by
  refine (counted_iff Nat.one_pos).trans ?_
  constructor
  · rintro ⟨head, hhead, hpre, hsize, rfl⟩
    obtain ⟨b, rfl⟩ := List.length_eq_one_iff.mp hhead
    have hb := (singleton_prefix_drop.mp (append_prefix_drop.mp hpre).1).2
    rw [hb] at hsize
    have hlt := b.toNat_lt
    have hof : UInt8.ofNat name.length = b := by
      rw [hsize, UInt8.ofNat_toNat]
    rw [shortstr, hof]
    exact ⟨by omega, hpre, by rw [List.length_cons]; omega⟩
  · rintro ⟨hlength, hpre, rfl⟩
    have hb := (singleton_prefix_drop.mp (append_prefix_drop.mp
      (show [UInt8.ofNat name.length] ++ name <+: _ from hpre)).1).2
    have hsize : (UInt8.ofNat name.length).toNat = name.length :=
      UInt8.toNat_ofNat_of_lt' (by rw [UInt8.size]; omega)
    refine ⟨[UInt8.ofNat name.length], rfl, hpre, ?_, ?_⟩
    · rw [hb, hsize]
    · rw [shortstr, List.length_cons]
      omega

theorem getUint32_of_isPrefix {size bytes : List UInt8} (hsize : size.length = 4)
    (h : size <+: bytes) : getUint32 bytes = getUint32 size := by
  obtain ⟨more, rfl⟩ := h
  exact getUint32_append_of_le (Nat.le_of_eq hsize.symm) more

theorem getLongstr_iff :
    getLongstr args offset = some (value, next) ↔
      ∃ size, size.length = 4 ∧ (getUint32 size).toNat = value.length ∧
        size ++ value <+: args.drop offset ∧
        next = offset + (size ++ value).length := by
  refine (counted_iff (by decide)).trans ?_
  refine exists_congr fun size => ?_
  constructor
  · rintro ⟨hsize, hpre, hlength, rfl⟩
    rw [getUint32_of_isPrefix hsize (append_prefix_drop.mp hpre).1] at hlength
    exact ⟨hsize, hlength.symm, hpre, by rw [List.length_append, hsize]⟩
  · rintro ⟨hsize, hlength, hpre, rfl⟩
    rw [getUint32_of_isPrefix hsize (append_prefix_drop.mp hpre).1]
    exact ⟨hsize, hpre, hlength.symm, by rw [List.length_append, hsize]⟩

/-! ## Tables -/

/-- An entry of a table: the name, and a string behind the four bytes of its
size or an integer of four bytes. -/
inductive TableField where
  | string (name size value : List UInt8)
  | integer (name value : List UInt8)
  deriving DecidableEq, Repr

namespace TableField

def name : TableField → List UInt8
  | .string name _ _ => name
  | .integer name _ => name

/-- The entry on the wire, with its type. -/
def bytes : TableField → List UInt8
  | .string name size value => shortstr name ++ ([83] ++ (size ++ value))
  | .integer name value => shortstr name ++ ([73] ++ value)

/-- The sizes are those of the parts. -/
def Complete : TableField → Prop
  | .string name size value =>
      name.length ≤ 0xff ∧ size.length = 4 ∧
        (getUint32 size).toNat = value.length
  | .integer name value => name.length ≤ 0xff ∧ value.length = 4

instance : DecidablePred Complete
  | .string _ _ _ => inferInstanceAs (Decidable (_ ∧ _ ∧ _))
  | .integer _ _ => inferInstanceAs (Decidable (_ ∧ _))

/-- The text of the value: the bytes of a string, the decimal number of an
integer. -/
def text : TableField → List UInt8
  | .string _ _ value => value
  | .integer _ value =>
      (Nat.toDigits 10 (getUint32 value).toNat).map fun digit =>
        UInt8.ofNat digit.toNat

/-- What the parser stores: it puts an integer into a `uint16_t`. -/
def stored : TableField → List UInt8
  | .string _ _ value => value
  | .integer _ value => decimal (getUint32 value).toUInt16

/-- An integer has no more than 16 bits. -/
def Narrow : TableField → Prop
  | .string _ _ _ => True
  | .integer _ value => (getUint32 value).toNat < 2 ^ 16

instance : DecidablePred Narrow
  | .string _ _ _ => inferInstanceAs (Decidable True)
  | .integer _ _ => inferInstanceAs (Decidable (_ < _))

theorem length_bytes_pos (f : TableField) : 0 < f.bytes.length := by
  cases f with
  | string name size value => simp [bytes, shortstr]
  | integer name value => simp [bytes, shortstr]

end TableField

/-- One round of the loop takes one entry. -/
theorem getEntry_iff {name : List UInt8} {size : Nat} :
    getEntry args offset = some (name, value, size, next) ↔
      ∃ f : TableField, f.Complete ∧ f.bytes <+: args.drop offset ∧
        name = f.name ∧ value = f.stored ∧ size = f.bytes.length ∧
        next = offset + size := by
  constructor
  · intro h
    simp only [getEntry, Option.bind_eq_bind, Option.bind_eq_some_iff] at h
    obtain ⟨⟨name', offset'⟩, hname, start, hstart, h⟩ := h
    obtain ⟨hlength, hpre, rfl⟩ := getShortstr_iff.mp hname
    obtain ⟨rfl, hle⟩ := advance_iff.mp hstart
    split at h
    · next htype =>
        obtain ⟨⟨value', next'⟩, hvalue, h⟩ := Option.bind_eq_some_iff.mp h
        obtain ⟨size', hsize, hcount, hpre', rfl⟩ := getLongstr_iff.mp hvalue
        cases h
        refine ⟨.string name' size' value', ⟨hlength, hsize, hcount⟩, ?_, rfl,
          rfl, ?_, ?_⟩
        · refine append_prefix_drop.mpr ⟨hpre, append_prefix_drop.mpr ⟨?_, hpre'⟩⟩
          exact singleton_prefix_drop.mpr ⟨hle, htype⟩
        · simp only [TableField.bytes, shortstr, List.length_append,
            List.length_cons, List.length_nil, hsize]
          omega
        · simp only [shortstr, List.length_append, List.length_cons, hsize]
          omega
    · split at h
      · next htype =>
          obtain ⟨next', hnext, h⟩ := Option.bind_eq_some_iff.mp h
          obtain ⟨rfl, hle'⟩ := advance_iff.mp hnext
          cases h
          let start := offset + (shortstr name').length + 1
          have hsize : ((args.drop start).take 4).length = 4 := by
            rw [List.length_take, List.length_drop]
            omega
          refine ⟨.integer name' ((args.drop start).take 4), ⟨hlength, hsize⟩,
            ?_, rfl, ?_, ?_, ?_⟩
          · refine append_prefix_drop.mpr ⟨hpre, append_prefix_drop.mpr ⟨?_, ?_⟩⟩
            · exact singleton_prefix_drop.mpr ⟨hle, htype⟩
            · exact List.take_prefix _ _
          · show decimal (getUint32 (args.drop start)).toUInt16 = decimal _
            rw [getUint32_of_isPrefix hsize (List.take_prefix _ _)]
          · simp only [TableField.bytes, shortstr, List.length_append,
              List.length_cons, List.length_nil, hsize]
            omega
          · simp only [shortstr, List.length_cons]
            omega
      · cases h
  · rintro ⟨f, hcomplete, hpre, rfl, rfl, rfl, rfl⟩
    cases f with
    | string name size value =>
        obtain ⟨hname, hsize, hcount⟩ := hcomplete
        obtain ⟨hpre, hrest⟩ := append_prefix_drop.mp hpre
        obtain ⟨htype, hvalue⟩ := append_prefix_drop.mp hrest
        obtain ⟨hle, htype⟩ := singleton_prefix_drop.mp htype
        rw [List.length_singleton] at hvalue
        rw [getEntry, getShortstr_iff.mpr ⟨hname, hpre, rfl⟩]
        simp only [Option.bind_eq_bind, Option.bind_some]
        rw [advance_iff.mpr ⟨rfl, hle⟩, Option.bind_some, if_pos htype,
          getLongstr_iff.mpr ⟨size, hsize, hcount, hvalue, rfl⟩]
        simp only [Option.bind_some, Option.pure_def, TableField.name,
          TableField.stored, TableField.bytes, shortstr, List.length_append,
          List.length_cons, List.length_nil, hsize, Option.some.injEq,
          Prod.mk.injEq, true_and]
        omega
    | integer name value =>
        obtain ⟨hname, hsize⟩ := hcomplete
        obtain ⟨hpre, hrest⟩ := append_prefix_drop.mp hpre
        obtain ⟨htype, hvalue⟩ := append_prefix_drop.mp hrest
        obtain ⟨hle, htype⟩ := singleton_prefix_drop.mp htype
        rw [List.length_singleton] at hvalue
        have hlength := hvalue.length_le
        rw [List.length_drop] at hlength
        rw [getEntry, getShortstr_iff.mpr ⟨hname, hpre, rfl⟩]
        simp only [Option.bind_eq_bind, Option.bind_some]
        rw [advance_iff.mpr ⟨rfl, hle⟩, Option.bind_some, if_neg (by
            rw [htype]; decide), if_pos htype,
          advance_iff.mpr ⟨rfl, by omega⟩, Option.bind_some,
          getUint32_of_isPrefix hsize hvalue]
        simp only [Option.pure_def, TableField.name, TableField.stored,
          TableField.bytes, shortstr, List.length_append, List.length_cons,
          List.length_nil, hsize, Option.some.injEq, Prod.mk.injEq, true_and]
        omega

/-- The loop takes entries until they have the size of the table. -/
theorem getEntries_iff {tableSize pos : Nat} {result : FieldTable} :
    getEntries args tableSize pos offset table = some result ↔
      ∃ fields : List TableField, (∀ f ∈ fields, f.Complete) ∧
        fields.flatMap TableField.bytes <+: args.drop offset ∧
        pos + (fields.flatMap TableField.bytes).length = tableSize ∧
        result = fields.foldl (fun table f => table.insert f.name f.stored)
          table := by
  constructor
  · intro h
    fun_induction getEntries args tableSize pos offset table with
    | case1 offset table =>
        cases h
        exact ⟨[], by simp, List.nil_prefix, rfl, rfl⟩
    | case2 pos offset table hne hentry => cases h
    | case3 pos offset table hne name value size next hentry ih =>
        obtain ⟨fields, hcomplete, hpre, hsize, hresult⟩ := ih h
        obtain ⟨f, hf, hpre', rfl, rfl, rfl, rfl⟩ := getEntry_iff.mp hentry
        refine ⟨f :: fields, List.forall_mem_cons.mpr ⟨hf, hcomplete⟩, ?_, ?_,
          hresult⟩
        · exact append_prefix_drop.mpr ⟨hpre', hpre⟩
        · rw [List.flatMap_cons, List.length_append]
          omega
  · rintro ⟨fields, hcomplete, hpre, hsize, rfl⟩
    induction fields generalizing pos offset table with
    | nil =>
        rw [getEntries, if_pos]
        · rfl
        · simpa using hsize
    | cons f fields ih =>
        have hpos := f.length_bytes_pos
        rw [List.flatMap_cons] at hpre hsize
        rw [List.length_append] at hsize
        obtain ⟨hf, hrest⟩ := append_prefix_drop.mp hpre
        obtain ⟨hc, hcs⟩ := List.forall_mem_cons.mp hcomplete
        have hentry : getEntry args offset = some (f.name, f.stored,
            f.bytes.length, offset + f.bytes.length) :=
          getEntry_iff.mpr ⟨f, hc, hf, rfl, rfl, rfl, rfl⟩
        rw [getEntries, if_neg (by omega)]
        split
        · next hnone =>
            rw [hentry] at hnone
            cases hnone
        · next hsome =>
            rw [hentry] at hsome
            cases hsome
            exact ih hcs hrest (by omega)

/-- The bytes after the size of a table are complete entries that fill it. -/
structure Filled (args : List UInt8) (offset : Nat) (fields : List TableField) :
    Prop where
  size : offset + 4 ≤ args.length
  complete : ∀ f ∈ fields, f.Complete
  entries : fields.flatMap TableField.bytes <+: args.drop (offset + 4)
  exact : (fields.flatMap TableField.bytes).length =
    (getUint32 (args.drop offset)).toNat

theorem getFieldTable_iff :
    getFieldTable args offset = some table ↔
      ∃ fields, Filled args offset fields ∧
        table = fields.foldl (fun table f => table.insert f.name f.stored) ∅ := by
  rw [getFieldTable, Option.bind_eq_bind, Option.bind_eq_some_iff]
  constructor
  · rintro ⟨start, hstart, hloop⟩
    obtain ⟨rfl, hle⟩ := advance_iff.mp hstart
    obtain ⟨fields, hcomplete, hpre, hsize, hresult⟩ := getEntries_iff.mp hloop
    exact ⟨fields, ⟨hle, hcomplete, hpre, (Nat.zero_add _).symm.trans hsize⟩,
      hresult⟩
  · rintro ⟨fields, h, hresult⟩
    exact ⟨offset + 4, advance_iff.mpr ⟨rfl, h.size⟩, getEntries_iff.mpr
      ⟨fields, h.complete, h.entries, (Nat.zero_add _).trans h.exact, hresult⟩⟩

/-- An entry is known from its bytes and what follows them. -/
theorem TableField.eq_of_isPrefix {f g : TableField} (hf : f.Complete)
    (hg : g.Complete) (hpf : f.bytes <+: args.drop offset)
    (hpg : g.bytes <+: args.drop offset) :
    f = g := by
  have hinj : ∀ {a b bytes : List UInt8}, a.length = b.length → a <+: bytes →
      b <+: bytes → a = b := fun h ha hb =>
    (List.prefix_of_prefix_length_le ha hb h.le).eq_of_length h
  have hname : ∀ {m n : List UInt8}, m.length ≤ 0xff → n.length ≤ 0xff →
      shortstr m <+: args.drop offset → shortstr n <+: args.drop offset →
      m = n := by
    intro m n hm hn hpm hpn
    have hget := getShortstr_iff.mpr ⟨hm, hpm, rfl⟩
    rw [getShortstr_iff.mpr ⟨hn, hpn, rfl⟩] at hget
    cases hget
    rfl
  cases f with
  | string m size value =>
      obtain ⟨hm, hsize, hcount⟩ := hf
      obtain ⟨hpm, hrest⟩ := append_prefix_drop.mp hpf
      obtain ⟨htype, hvalue⟩ := append_prefix_drop.mp hrest
      obtain ⟨hps, hpv⟩ := append_prefix_drop.mp hvalue
      cases g with
      | string n size' value' =>
          obtain ⟨hn, hsize', hcount'⟩ := hg
          obtain ⟨hpn, hrest'⟩ := append_prefix_drop.mp hpg
          cases hname hm hn hpm hpn
          obtain ⟨hps', hpv'⟩ :=
            append_prefix_drop.mp (append_prefix_drop.mp hrest').2
          cases hinj (hsize.trans hsize'.symm) hps hps'
          cases hinj (hcount.symm.trans hcount') hpv hpv'
          rfl
      | integer n value' =>
          obtain ⟨hpn, hrest'⟩ := append_prefix_drop.mp hpg
          cases hname hm hg.1 hpm hpn
          have htype' := (append_prefix_drop.mp hrest').1
          rw [singleton_prefix_drop] at htype htype'
          exact absurd (htype.2.symm.trans htype'.2) (by decide)
  | integer m value =>
      obtain ⟨hpm, hrest⟩ := append_prefix_drop.mp hpf
      obtain ⟨htype, hvalue⟩ := append_prefix_drop.mp hrest
      cases g with
      | string n size' value' =>
          obtain ⟨hpn, hrest'⟩ := append_prefix_drop.mp hpg
          cases hname hf.1 hg.1 hpm hpn
          have htype' := (append_prefix_drop.mp hrest').1
          rw [singleton_prefix_drop] at htype htype'
          exact absurd (htype.2.symm.trans htype'.2) (by decide)
      | integer n value' =>
          obtain ⟨hpn, hrest'⟩ := append_prefix_drop.mp hpg
          cases hname hf.1 hg.1 hpm hpn
          cases hinj (hf.2.trans hg.2.symm) hvalue (append_prefix_drop.mp hrest').2
          rfl

theorem TableField.eq_of_flatMap_isPrefix {fields fields' : List TableField}
    (hc : ∀ f ∈ fields, f.Complete) (hc' : ∀ f ∈ fields', f.Complete)
    (hp : fields.flatMap bytes <+: args.drop offset)
    (hp' : fields'.flatMap bytes <+: args.drop offset)
    (hlength : (fields.flatMap bytes).length = (fields'.flatMap bytes).length) :
    fields = fields' := by
  induction fields generalizing fields' offset with
  | nil =>
      cases fields' with
      | nil => rfl
      | cons g rest =>
          have hpos := g.length_bytes_pos
          simp only [List.flatMap_nil, List.flatMap_cons, List.length_nil,
            List.length_append] at hlength
          omega
  | cons f fields ih =>
      cases fields' with
      | nil =>
          have hpos := f.length_bytes_pos
          simp only [List.flatMap_nil, List.flatMap_cons, List.length_nil,
            List.length_append] at hlength
          omega
      | cons g rest =>
          obtain ⟨hf, hfs⟩ := append_prefix_drop.mp hp
          obtain ⟨hg, hgs⟩ := append_prefix_drop.mp hp'
          obtain ⟨hcf, hcfs⟩ := List.forall_mem_cons.mp hc
          obtain ⟨hcg, hcgs⟩ := List.forall_mem_cons.mp hc'
          cases eq_of_isPrefix hcf hcg hf hg
          simp only [List.flatMap_cons, List.length_append] at hlength
          rw [ih hcfs hcgs hfs hgs (by omega)]

theorem Filled.unique {fields fields' : List TableField}
    (h : Filled args offset fields) (h' : Filled args offset fields') :
    fields = fields' :=
  TableField.eq_of_flatMap_isPrefix h.complete h'.complete h.entries h'.entries
    (h.exact.trans h'.exact.symm)

/-- The last entry of a name. -/
def lastOf (name : List UInt8) (fields : List TableField) : Option TableField :=
  fields.reverse.find? fun f => f.name = name

theorem mem_of_lastOf {name : List UInt8} {fields : List TableField}
    {f : TableField} (h : lastOf name fields = some f) :
    f ∈ fields ∧ f.name = name := by
  have hname := List.find?_some h
  exact ⟨List.mem_reverse.mp (List.mem_of_find?_eq_some h),
    of_decide_eq_true hname⟩

theorem getElem?_foldl_insert (fields : List TableField) (name : List UInt8) :
    (fields.foldl (fun table f => table.insert f.name f.stored)
      (∅ : FieldTable))[name]? = (lastOf name fields).map TableField.stored := by
  induction fields using List.reverseRecOn with
  | nil => rfl
  | append_singleton fields f ih =>
      rw [List.foldl_append, List.foldl_cons, List.foldl_nil,
        Std.ExtTreeMap.getElem?_insert, ih, lastOf, lastOf, List.reverse_append,
        List.reverse_singleton, List.singleton_append, List.find?_cons]
      by_cases hname : f.name = name
      · simp [hname]
      · have hne : compare f.name name ≠ .eq := fun heq =>
          hname (Std.LawfulEqCmp.eq_of_compare heq)
        simp [hname, hne]

/-! ## Numbers in decimal -/

theorem digits_inj {m n : Nat}
    (h : (Nat.toDigits 10 m).map (fun digit => UInt8.ofNat digit.toNat) =
      (Nat.toDigits 10 n).map fun digit => UInt8.ofNat digit.toNat) : m = n := by
  -- a digit is a character below 256
  have hback : ∀ k, ((Nat.toDigits 10 k).map fun digit =>
      UInt8.ofNat digit.toNat).map UInt8.toNat =
        (Nat.toDigits 10 k).map Char.toNat := by
    intro k
    rw [List.map_map]
    refine List.map_congr_left fun digit hmem => ?_
    have hdigit := Nat.isDigit_of_mem_toDigits (by decide) (by decide) hmem
    have hlt : digit.toNat < UInt8.size := by
      have hle : digit.toNat ≤ 57 := by
        simp only [Char.isDigit, Bool.and_eq_true, decide_eq_true_eq] at hdigit
        exact hdigit.2
      exact Nat.lt_of_le_of_lt hle (by decide)
    exact UInt8.toNat_ofNat_of_lt' hlt
  have hvalue : ∀ k, k = ((Nat.toDigits 10 k).map Char.toNat).foldl
      (fun sofar c => 10 * sofar + (c - '0'.toNat)) 0 := by
    intro k
    rw [List.foldl_map, ← Nat.ofDigitChars_eq_foldl,
      Nat.ofDigitChars_ten_toDigits]
  have hmap := congrArg (List.map UInt8.toNat) h
  rw [hback, hback] at hmap
  rw [hvalue m, hmap, ← hvalue n]

/-- The parser stores the text of the value unless that is too wide. -/
theorem TableField.stored_eq_text_iff (f : TableField) :
    f.stored = f.text ↔ f.Narrow := by
  cases f with
  | string name size value => exact ⟨fun _ => trivial, fun _ => rfl⟩
  | integer name value =>
      have hlow : (getUint32 value).toUInt16.toNat =
          (getUint32 value).toNat % 2 ^ 16 := UInt32.toNat_toUInt16 _
      constructor
      · intro h
        have heq := digits_inj h
        rw [hlow] at heq
        show (getUint32 value).toNat < 2 ^ 16
        omega
      · intro h
        have hlt : (getUint32 value).toNat < 2 ^ 16 := h
        rw [stored, text, decimal, hlow, Nat.mod_eq_of_lt hlt]

/-! ## `get_field_table` -/

/-- Why `get_field_table` does not return: an assertion has failed, or a byte
that is not in the buffer has been read. -/
inductive TableError where
  | assertion
  | fault
  deriving DecidableEq, Repr

/-- The arguments of a method; their size is a `size_t` of `w` bits. -/
structure ArgBuffer (w : Nat) where
  bytes : List UInt8
  fits : bytes.length < 2 ^ w

namespace ArgBuffer

variable {w : Nat} {args : ArgBuffer w}

/-- `assert (offset + n <= args_size)`. -/
def check (args : ArgBuffer w) (offset n : Nat) : Except TableError Unit :=
  if (offset + n) % 2 ^ w ≤ args.bytes.length then .ok ()
  else .error .assertion

/-- The `n` bytes at `args + offset`. -/
def read (args : ArgBuffer w) (offset n : Nat) :
    Except TableError (List UInt8) :=
  if n = 0 ∨ offset + n ≤ args.bytes.length then
    .ok ((args.bytes.drop offset).take n)
  else .error .fault

/-- The assertion, the bytes, and `offset += n`. -/
def get (args : ArgBuffer w) (offset n : Nat) :
    Except TableError (List UInt8 × Nat) := do
  args.check offset n
  let bytes ← args.read offset n
  return (bytes, (offset + n) % 2 ^ w)

/-- A string with its size in one byte, and the offset after it. -/
def getShortstr (args : ArgBuffer w) (offset : Nat) :
    Except TableError (List UInt8 × Nat) := do
  let (size, start) ← args.get offset 1
  args.get start (size.headD 0).toNat

/-- A string with its size in four bytes, and the offset after it. -/
def getLongstr (args : ArgBuffer w) (offset : Nat) :
    Except TableError (List UInt8 × Nat) := do
  let (size, start) ← args.get offset 4
  args.get start (getUint32 size).toNat

/-- One round of the loop in `get_field_table`: the name and the value of an
entry, what is added to `pos`, and the offset after the entry. -/
def getEntry (args : ArgBuffer w) (offset : Nat) :
    Except TableError (List UInt8 × List UInt8 × Nat × Nat) := do
  let (name, offset) ← args.getShortstr offset
  let (type, start) ← args.get offset 1
  if type.headD 0 = 83 then -- 'S'
    let (value, next) ← args.getLongstr start
    return (name, value, 1 + name.length + 1 + 4 + value.length, next)
  else if type.headD 0 = 73 then -- 'I'
    let (value, next) ← args.get start 4
    return (name, decimal (getUint32 value).toUInt16, 1 + name.length + 1 + 4,
      next)
  else .error .assertion

theorem bind_eq_ok {α β : Type} {x : Except TableError α}
    {f : α → Except TableError β} {b : β} :
    (x >>= f) = .ok b ↔ ∃ a, x = .ok a ∧ f a = .ok b := by
  cases x with
  | error e => exact ⟨nofun, nofun⟩
  | ok a => exact ⟨fun h => ⟨a, rfl, h⟩, fun ⟨_, ha, h⟩ => by cases ha; exact h⟩

theorem get_next {n : Nat} {bytes : List UInt8}
    (h : args.get offset n = .ok (bytes, next))
    (hin : 0 < n ∨ offset ≤ args.bytes.length) :
    next = offset + n ∧ next ≤ args.bytes.length := by
  obtain ⟨_, _, h⟩ := bind_eq_ok.mp h
  obtain ⟨_, hread, h⟩ := bind_eq_ok.mp h
  cases h
  rw [read] at hread
  split at hread
  · next hle =>
      have hfits := args.fits
      rw [Nat.mod_eq_of_lt (by omega)]
      exact ⟨rfl, by omega⟩
  · cases hread

theorem getShortstr_next {name : List UInt8}
    (h : args.getShortstr offset = .ok (name, next)) :
    offset < next ∧ next ≤ args.bytes.length := by
  obtain ⟨⟨size, start⟩, hsize, h⟩ := bind_eq_ok.mp h
  have hstart := get_next hsize (.inl Nat.one_pos)
  have hnext := get_next h (.inr hstart.2)
  omega

theorem getLongstr_next (h : args.getLongstr offset = .ok (value, next)) :
    offset < next ∧ next ≤ args.bytes.length := by
  obtain ⟨⟨size, start⟩, hsize, h⟩ := bind_eq_ok.mp h
  have hstart := get_next hsize (.inl (by decide))
  have hnext := get_next h (.inr hstart.2)
  omega

theorem getEntry_next {size : Nat} {name : List UInt8}
    (h : args.getEntry offset = .ok (name, value, size, next)) :
    offset < next ∧ next ≤ args.bytes.length := by
  obtain ⟨⟨name', offset'⟩, hname, h⟩ := bind_eq_ok.mp h
  obtain ⟨⟨type, start⟩, htype, h⟩ := bind_eq_ok.mp h
  have hname := getShortstr_next hname
  have htype := get_next htype (.inl Nat.one_pos)
  dsimp only at h
  split at h
  · obtain ⟨⟨value', next'⟩, hvalue, h⟩ := bind_eq_ok.mp h
    have hvalue := getLongstr_next hvalue
    cases h
    omega
  · split at h
    · obtain ⟨⟨value', next'⟩, hvalue, h⟩ := bind_eq_ok.mp h
      have hvalue := get_next hvalue (.inl (by decide))
      cases h
      omega
    · cases h

/-- The loop of `get_field_table`. -/
def getEntries (args : ArgBuffer w) (tableSize pos offset : Nat)
    (table : FieldTable) : Except TableError FieldTable :=
  if pos = tableSize then .ok table
  else
    match _ : args.getEntry offset with
    | .error e => .error e
    | .ok (name, value, size, next) =>
        args.getEntries tableSize ((pos + size) % 2 ^ w) next
          (table.insert name value)
termination_by args.bytes.length - offset
decreasing_by
  next h =>
    have := getEntry_next h
    omega

/-- `get_field_table`. -/
def getFieldTable (args : ArgBuffer w) (offset : Nat) :
    Except TableError FieldTable := do
  let (size, offset) ← args.get offset 4
  args.getEntries (getUint32 size).toNat 0 offset ∅

/-! ### Sums that do not wrap -/

/-- The outcome of a function that can only fail an assertion. -/
def asserted {α : Type} (x : Option α) : Except TableError α :=
  x.elim (.error .assertion) .ok

theorem get_eq {n : Nat} (hlt : offset + n < 2 ^ w) :
    args.get offset n = asserted ((advance args.bytes offset n).map fun next =>
      ((args.bytes.drop offset).take n, next)) := by
  rw [get, check, Nat.mod_eq_of_lt hlt, advance]
  split
  · next hle =>
      rw [read, if_pos (.inr hle)]
      rfl
  · rfl

theorem bind_ok {α β : Type} (a : α) (f : α → Except TableError β) :
    (Except.ok a >>= f) = f a :=
  rfl

theorem headD_take (bytes : List UInt8) :
    (bytes.take 1).headD 0 = bytes.headD 0 := by
  cases bytes <;> rfl

theorem getUint32_take (bytes : List UInt8) :
    getUint32 (bytes.take 4) = getUint32 bytes := by
  match bytes with
  | [] | [_] | [_, _] | [_, _, _] | _ :: _ :: _ :: _ :: _ => rfl

section Room

variable (hroom : args.bytes.length + 2 ^ 32 ≤ 2 ^ w)
include hroom

theorem getShortstr_eq (hin : offset ≤ args.bytes.length) :
    args.getShortstr offset =
      asserted (ZeroMQ.getShortstr args.bytes offset) := by
  rw [getShortstr, ZeroMQ.getShortstr, get_eq (by omega)]
  cases hstart : advance args.bytes offset 1 with
  | none => rfl
  | some start =>
      obtain ⟨rfl, hle⟩ := advance_iff.mp hstart
      have hlt := ((args.bytes.drop offset).headD 0).toNat_lt
      show args.get (offset + 1) (((args.bytes.drop offset).take 1).headD
        0).toNat = _
      rw [headD_take, get_eq (by omega)]
      simp only [Option.bind_eq_bind, Option.bind_some]
      cases advance args.bytes (offset + 1)
        ((args.bytes.drop offset).headD 0).toNat <;> rfl

theorem getLongstr_eq (hin : offset ≤ args.bytes.length) :
    args.getLongstr offset =
      asserted (ZeroMQ.getLongstr args.bytes offset) := by
  rw [getLongstr, ZeroMQ.getLongstr, get_eq (by omega)]
  cases hstart : advance args.bytes offset 4 with
  | none => rfl
  | some start =>
      obtain ⟨rfl, hle⟩ := advance_iff.mp hstart
      have hlt := (getUint32 (args.bytes.drop offset)).toNat_lt
      show args.get (offset + 4) (getUint32
        ((args.bytes.drop offset).take 4)).toNat = _
      rw [getUint32_take, get_eq (by omega)]
      simp only [Option.bind_eq_bind, Option.bind_some]
      cases advance args.bytes (offset + 4)
        (getUint32 (args.bytes.drop offset)).toNat <;> rfl

theorem getEntry_eq (hin : offset ≤ args.bytes.length) :
    args.getEntry offset = asserted (ZeroMQ.getEntry args.bytes offset) := by
  rw [getEntry, ZeroMQ.getEntry, getShortstr_eq hroom hin]
  cases hname : ZeroMQ.getShortstr args.bytes offset with
  | none => rfl
  | some s =>
      obtain ⟨name, offset'⟩ := s
      obtain ⟨-, hpre, rfl⟩ := getShortstr_iff.mp hname
      have hle := hpre.length_le
      rw [List.length_drop] at hle
      show (args.get (offset + (shortstr name).length) 1 >>= _) = _
      rw [get_eq (by omega)]
      simp only [Option.bind_eq_bind, Option.bind_some]
      cases hstart : advance args.bytes (offset + (shortstr name).length) 1 with
      | none => rfl
      | some start =>
          obtain ⟨rfl, hle'⟩ := advance_iff.mp hstart
          simp only [asserted, Option.map_some, Option.elim_some, bind_ok,
            headD_take, Option.bind_some]
          split
          · rw [getLongstr_eq hroom hle']
            cases ZeroMQ.getLongstr args.bytes
              (offset + (shortstr name).length + 1) <;> rfl
          · split
            · rw [get_eq (by omega)]
              cases advance args.bytes (offset + (shortstr name).length + 1) 4 with
              | none => rfl
              | some next =>
                  show Except.ok _ = Except.ok _
                  rw [getUint32_take]
            · rfl

/-- The size of the entries is not more than that of the bytes they are. -/
theorem getEntries_eq {tableSize pos : Nat} (hin : offset ≤ args.bytes.length)
    (hpos : pos ≤ offset) :
    args.getEntries tableSize pos offset table =
      asserted (ZeroMQ.getEntries args.bytes tableSize pos offset table) := by
  fun_induction ZeroMQ.getEntries args.bytes tableSize pos offset table with
  | case1 offset table =>
      rw [getEntries, if_pos rfl]
      rfl
  | case2 pos offset table hne hentry =>
      have heq := getEntry_eq hroom hin
      rw [hentry] at heq
      rw [getEntries, if_neg hne]
      split
      · next herror =>
          rw [heq] at herror
          cases herror
          rfl
      · next hok =>
          rw [heq] at hok
          cases hok
  | case3 pos offset table hne name value size next hentry ih =>
      have heq := getEntry_eq hroom hin
      rw [hentry] at heq
      obtain ⟨f, -, hpre, -, -, rfl, rfl⟩ := getEntry_iff.mp hentry
      have hle := hpre.length_le
      rw [List.length_drop] at hle
      rw [getEntries, if_neg hne]
      split
      · next herror =>
          rw [heq] at herror
          cases herror
      · next hok =>
          rw [heq] at hok
          cases hok
          have hsum : (pos + f.bytes.length) % 2 ^ w = pos + f.bytes.length :=
            Nat.mod_eq_of_lt (by omega)
          rw [hsum]
          exact ih (by omega) (by omega)

theorem getFieldTable_eq (hlt : offset + 4 < 2 ^ w) :
    args.getFieldTable offset =
      asserted (ZeroMQ.getFieldTable args.bytes offset) := by
  rw [getFieldTable, ZeroMQ.getFieldTable, get_eq hlt]
  cases hstart : advance args.bytes offset 4 with
  | none => rfl
  | some start =>
      obtain ⟨rfl, hle⟩ := advance_iff.mp hstart
      show args.getEntries (getUint32 ((args.bytes.drop offset).take 4)).toNat 0
        (offset + 4) ∅ = _
      rw [getUint32_take, getEntries_eq hroom hle (Nat.zero_le _)]
      rfl

end Room

/-- The sum in the first assertion wraps: if that lets the assertion pass, bytes
outside of the buffer are read. -/
theorem getFieldTable_of_wrap (hoffset : offset < 2 ^ w) (hfour : 4 ≤ 2 ^ w)
    (hwrap : 2 ^ w ≤ offset + 4) :
    args.getFieldTable offset = .error
      (if offset + 4 - 2 ^ w ≤ args.bytes.length then .fault else .assertion) := by
  have hsum : (offset + 4) % 2 ^ w = offset + 4 - 2 ^ w := by
    rw [Nat.mod_eq_sub_mod hwrap, Nat.mod_eq_of_lt (by omega)]
  have hfits := args.fits
  rw [getFieldTable, get, check, hsum]
  split
  · rw [read, if_neg (by omega)]
    rfl
  · rfl

/-! ### What the parser is for -/

/-- No byte outside of the buffer is read, there is a result if complete entries
fill the table, and it maps each name to the text of its last value. -/
structure Exact (args : ArgBuffer w) (offset : Nat) : Prop where
  inside : args.getFieldTable offset ≠ .error .fault
  accepts : (∃ table, args.getFieldTable offset = .ok table) ↔
    ∃ fields, Filled args.bytes offset fields
  values : ∀ table fields, args.getFieldTable offset = .ok table →
    Filled args.bytes offset fields →
    ∀ name, table[name]? = (lastOf name fields).map TableField.text

/-- Without a sum that wraps only the values can be wrong. -/
theorem exact_iff_narrow (hroom : args.bytes.length + 2 ^ 32 ≤ 2 ^ w)
    (hlt : offset + 4 < 2 ^ w) :
    args.Exact offset ↔ ∀ fields, Filled args.bytes offset fields →
      ∀ name field, lastOf name fields = some field → field.Narrow := by
  have hrun := getFieldTable_eq hroom hlt
  have hok : ∀ table, args.getFieldTable offset = .ok table ↔
      ZeroMQ.getFieldTable args.bytes offset = some table := by
    intro table
    rw [hrun]
    cases ZeroMQ.getFieldTable args.bytes offset with
    | none => exact ⟨nofun, nofun⟩
    | some result => exact ⟨fun h => by cases h; rfl, fun h => by cases h; rfl⟩
  constructor
  · intro h fields hfilled name field hlast
    have htable := (hok _).mpr (getFieldTable_iff.mpr ⟨fields, hfilled, rfl⟩)
    have hvalue := h.values _ fields htable hfilled name
    rw [getElem?_foldl_insert, hlast] at hvalue
    exact field.stored_eq_text_iff.mp (Option.some.inj hvalue)
  · intro h
    refine ⟨?_, ?_, ?_⟩
    · rw [hrun]
      cases ZeroMQ.getFieldTable args.bytes offset <;> exact nofun
    · constructor
      · rintro ⟨table, htable⟩
        obtain ⟨fields, hfilled, -⟩ := getFieldTable_iff.mp ((hok _).mp htable)
        exact ⟨fields, hfilled⟩
      · rintro ⟨fields, hfilled⟩
        exact ⟨_, (hok _).mpr (getFieldTable_iff.mpr ⟨fields, hfilled, rfl⟩)⟩
    · intro table fields htable hfilled name
      have hsame := getFieldTable_iff.mpr ⟨fields, hfilled, rfl⟩
      rw [(hok _).mp htable] at hsame
      rw [Option.some.inj hsame, getElem?_foldl_insert]
      cases hlast : lastOf name fields with
      | none => rfl
      | some field =>
          exact congrArg some (field.stored_eq_text_iff.mpr (h _ hfilled _ _ hlast))

/-- The parser is exact unless the offset is so large that the sum in the first
assertion wraps and passes it, or the last integer of a name has more than 16
bits. -/
theorem field_table_exact_iff (args : ArgBuffer w) (offset : Nat)
    (hoffset : offset < 2 ^ w) (hroom : args.bytes.length + 2 ^ 32 ≤ 2 ^ w) :
    args.Exact offset ↔
      ¬ (2 ^ w ≤ offset + 4 ∧ offset + 4 - 2 ^ w ≤ args.bytes.length) ∧
        ∀ fields, Filled args.bytes offset fields →
          ∀ name field, lastOf name fields = some field → field.Narrow := by
  rcases Nat.lt_or_ge (offset + 4) (2 ^ w) with hlt | hwrap
  · rw [exact_iff_narrow hroom hlt]
    exact ⟨fun h => ⟨by omega, h⟩, And.right⟩
  · have hrun : args.getFieldTable offset = _ :=
      getFieldTable_of_wrap hoffset (by omega) hwrap
    have hempty : ∀ fields, ¬ Filled args.bytes offset fields := by
      intro fields hfilled
      have hsize := hfilled.size
      omega
    constructor
    · intro h
      refine ⟨fun hpass => h.inside ?_, fun fields hf => (hempty fields hf).elim⟩
      rw [hrun, if_pos hpass.2]
    · rintro ⟨hpass, -⟩
      rw [if_neg fun hle => hpass ⟨hwrap, hle⟩] at hrun
      refine ⟨?_, ?_, fun _ fields _ hf => (hempty fields hf).elim⟩
      · rw [hrun]
        exact nofun
      · rw [hrun]
        exact ⟨nofun, fun ⟨fields, hf⟩ => (hempty fields hf).elim⟩

/-- The table `a = 7`. -/
def seven : ArgBuffer 64 where
  bytes := [0, 0, 0, 7, 1, 97, 73, 0, 0, 0, 7]
  fits := by decide

theorem field_table_exact_seven : seven.Exact 0 := by
  have hfilled : Filled seven.bytes 0 [.integer [97] [0, 0, 0, 7]] :=
    ⟨by decide, by decide, by decide, by decide⟩
  refine (field_table_exact_iff seven 0 (by decide) (by decide)).mpr
    ⟨by decide, fun fields h name field hlast => ?_⟩
  cases h.unique hfilled
  cases List.mem_singleton.mp (mem_of_lastOf hlast).1
  show (getUint32 [0, 0, 0, 7]).toNat < 2 ^ 16
  decide

/-- The table `a = 65536`. -/
def wide : ArgBuffer 64 where
  bytes := [0, 0, 0, 7, 1, 97, 73, 0, 1, 0, 0]
  fits := by decide

/-- A string of 2³² - 1 bytes with the name `a`, and the buffer ends. -/
def long : ArgBuffer 32 where
  bytes := [0, 0, 0, 7, 1, 97, 83, 255, 255, 255, 255]
  fits := by decide

/-- The number 65536 is stored as `0`.  For a `size_t` of 32 bits the size of a
string wraps, and for any `size_t` a large offset does; both pass the assertions,
and bytes outside of the buffer are read. -/
theorem field_table_not_exact :
    ((∃ table, wide.getFieldTable 0 = .ok table ∧ table[([97] : List UInt8)]? = some [48]) ∧
      ¬ wide.Exact 0) ∧
      (long.getFieldTable 0 = .error .fault ∧ ¬ long.Exact 0) ∧
      (seven.getFieldTable (2 ^ 64 - 4) = .error .fault ∧
        ¬ seven.Exact (2 ^ 64 - 4)) := by
  have hfilled : Filled wide.bytes 0 [.integer [97] [0, 1, 0, 0]] :=
    ⟨by decide, by decide, by decide, by decide⟩
  have hwide : wide.getFieldTable 0 = _ :=
    getFieldTable_eq (by decide) (by decide)
  rw [getFieldTable_iff.mpr ⟨_, hfilled, rfl⟩] at hwide
  have hlong : long.getFieldTable 0 = .error .fault := by
    show long.getEntries 7 0 4 ∅ = .error .fault
    have hentry : long.getEntry 4 = .error .fault := by decide
    rw [getEntries, if_neg (by decide)]
    split
    · next herror =>
        rw [hentry] at herror
        cases herror
        rfl
    · next hok =>
        rw [hentry] at hok
        cases hok
  have hlarge : seven.getFieldTable (2 ^ 64 - 4) = .error .fault :=
    getFieldTable_of_wrap (by decide) (by decide) (by decide)
  refine ⟨⟨⟨_, hwide, ?_⟩, fun h => ?_⟩, ⟨hlong, fun h => h.inside hlong⟩,
    hlarge, fun h => h.inside hlarge⟩
  · rw [getElem?_foldl_insert]
    decide
  · have hnarrow := (exact_iff_narrow (by decide) (by decide)).mp h _ hfilled [97]
      _ rfl
    exact absurd hnarrow (by decide)

end ArgBuffer

end ZeroMQ
