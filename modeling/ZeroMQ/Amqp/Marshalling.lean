import Mathlib.Data.List.Nodup
import ZeroMQ.Amqp.Fields

/-!
# Marshaller and unmarshaller

Both are generated from one definition of the methods, and the arguments that
are put should be the arguments that are taken.  There are three exceptions.

* `get_field_table` does not move the offset of its caller, unlike
  `put_field_table`: the fields behind a table are taken from its first bytes.
* The size of a key is written as one byte, whatever the key is.
* A class without the method falls through to the next one in the outer switch.

The condition for the first is a condition on the definition, and it is exact:
where a field follows a table and there is room in a frame for a value that is
not zero, there are arguments that come out wrong.

## Main definitions

* `EightBits`, `ZerosBehindTables` — conditions on the fields of a method.
* `WellFormed` — definitions the templates can be used for.

## Main results

* `getFields_table` — what happens behind the first table.
* `roundTrips_of_zerosBehindTables`, `zerosBehindTables_of_roundTrips` — when
  the fields come out as they went in.
* `marshaller_unmarshaller_agree` — whole methods.
-/

namespace ZeroMQ

open Amqp FieldType

/-- There are no nine bits in a row. -/
def EightBits (types : List FieldType) : Prop :=
  ¬ List.replicate 9 FieldType.bit <:+: types

/-- What follows a table can only be zero or empty: there is no room in a frame
for anything else.  There is nothing to check when tables come last. -/
def ZerosBehindTables (types : List FieldType) : Prop :=
  ∀ front type rest, types = front ++ type :: rest → .table ∈ front →
    frameMinSize < minSize 0 types + spare type

theorem bitRuns_of_eightBits {types : List FieldType} {bitOffset : Nat}
    (hle : bitOffset ≤ 8)
    (h : EightBits (List.replicate bitOffset .bit ++ types)) :
    BitRuns bitOffset types := by
  induction types generalizing bitOffset with
  | nil => exact trivial
  | cons type types ih =>
      by_cases hbit : type = .bit
      · subst hbit
        have hshape : List.replicate bitOffset FieldType.bit ++ .bit :: types =
            List.replicate (bitOffset + 1) .bit ++ types := by
          rw [List.replicate_succ', List.append_assoc]
          rfl
        rw [hshape] at h
        have hlt : bitOffset < 8 := by
          rcases Nat.lt_or_eq_of_le hle with hlt | rfl
          · exact hlt
          · exact (h (List.prefix_append _ _).isInfix).elim
        exact ⟨hlt, ih hlt h⟩
      · rw [(cons_of_ne hbit bitOffset types).2.2]
        refine ih (Nat.zero_le _) ?_
        intro hnine
        refine h (hnine.trans ?_)
        exact (List.suffix_append_of_suffix (List.suffix_cons _ _)).isInfix

theorem minSize_append (bitOffset : Nat) (types types' : List FieldType) :
    minSize bitOffset (types ++ types') =
      minSize bitOffset types +
        minSize (bitsAfter bitOffset types) types' := by
  induction types generalizing bitOffset with
  | nil => exact (Nat.zero_add _).symm
  | cons type types ih =>
      by_cases hbit : type = .bit
      · subst hbit
        simp only [List.cons_append, minSize, bitsAfter, ih, Nat.add_assoc]
      · rw [List.cons_append, (cons_of_ne hbit bitOffset _).2.1,
          (cons_of_ne hbit bitOffset _).2.1, (cons_of_ne hbit bitOffset _).1,
          ih, Nat.add_assoc]

theorem bitRuns_append {bitOffset : Nat} {types types' : List FieldType}
    (h : BitRuns bitOffset (types ++ types')) :
    BitRuns bitOffset types ∧ BitRuns (bitsAfter bitOffset types) types' := by
  induction types generalizing bitOffset with
  | nil => exact ⟨trivial, h⟩
  | cons type types ih =>
      by_cases hbit : type = .bit
      · subst hbit
        obtain ⟨hlt, h⟩ := h
        rw [bitsAfter, nextBit_of_lt hlt]
        exact ⟨⟨hlt, (ih h).1⟩, (ih h).2⟩
      · rw [List.cons_append, (cons_of_ne hbit bitOffset _).2.2] at h
        rw [(cons_of_ne hbit bitOffset _).2.2,
          (cons_of_ne hbit bitOffset _).1]
        exact ih h

/-! ## The first table -/

/-- The fields behind the first table are taken from where it begins. -/
theorem getFields_table {front rest : List FieldValue} {table : FieldTable}
    {args : List UInt8} (htables : ∀ value ∈ front, value.type ≠ .table)
    (hsound : ∀ value ∈ front, value.Sound)
    (hkeys : (FieldValue.table table).ShortKeys)
    (hruns : BitRuns 0
      ((front ++ .table table :: rest).map FieldValue.type))
    (hput : putFields (front ++ .table table :: rest) 0 [] = some args) :
    ∃ mid, putFields front 0 [] = some mid ∧
      putFields rest 0 (mid ++ tableBytes table) = some args ∧
      getFields args ((front ++ .table table :: rest).map FieldValue.type) 0 0 =
        (getFields args (rest.map FieldValue.type) 0 mid.length).map
          fun values => front ++ .table table :: values := by
  rw [putFields_append, Option.bind_eq_some_iff] at hput
  obtain ⟨mid, hfront, hput⟩ := hput
  rw [List.map_append] at hruns
  obtain ⟨hruns, hruns'⟩ := bitRuns_append hruns
  obtain ⟨hopen, hextends⟩ := putFields_extends hruns (open_zero []) hfront
  have hall := hput
  rw [putFields_cons_of_ne (by simp [FieldValue.type]),
    Option.bind_eq_some_iff] at hput
  obtain ⟨args', hfield, hput⟩ := hput
  obtain ⟨hfits, rfl⟩ := putField_eq_some.mp hfield
  refine ⟨mid, hfront, hput, ?_⟩
  -- what was put before stays, and the table is behind it
  have hruns'' : BitRuns 0 (rest.map FieldValue.type) := hruns'
  obtain ⟨more, rfl⟩ : mid ++ fieldBytes (.table table) <+: args := by
    obtain ⟨hopen', hextends'⟩ := putFields_extends hruns'' (open_zero _) hput
    exact hextends' args (Extends.refl hopen')
  have hout : Extends (bitsAfter 0 (front.map FieldValue.type)) mid
      (mid ++ fieldBytes (.table table) ++ more) := by
    rw [List.append_assoc]
    exact extends_append hopen _
  have hinitial := getFields_initial
    ((FieldValue.table table :: rest).map FieldValue.type) htables hsound hruns
    (open_zero []) hfront hout
  have hvalue := @getField_append (.table table)
    (by simp [FieldValue.type]) trivial hkeys (by omega) mid more
  rw [← List.append_assoc] at hvalue
  rw [List.map_append]
  refine hinitial.trans ?_
  rw [List.map_cons, getFields_cons_of_ne (by simp [FieldValue.type]),
    place_succ hopen, hvalue, Option.bind_some, Option.map_map]
  rfl

theorem exists_first_table {values : List FieldValue}
    (h : .table ∈ values.map FieldValue.type) :
    ∃ front table rest, values = front ++ .table table :: rest ∧
      ∀ value ∈ front, value.type ≠ .table := by
  obtain ⟨front, rest, heq, hnot⟩ := List.eq_append_cons_of_mem h
  obtain ⟨front, tail, rfl, rfl, htail⟩ := List.map_eq_append_iff.mp heq
  obtain ⟨value, rest, rfl, hvalue, rfl⟩ := List.map_eq_cons_iff.mp htail
  cases value with
  | table table =>
      refine ⟨front, table, rest, rfl, ?_⟩
      intro value hmem htype
      exact hnot (List.mem_map.mpr ⟨value, hmem, htype⟩)
  | bit | octet | short | long | longlong | timestamp | shortstr | longstr =>
      cases hvalue

/-! ## Round trips -/

/-- What is put is taken again exactly when the keys are short. -/
def RoundTrips (types : List FieldType) : Prop :=
  ∀ values args, values.map FieldValue.type = types →
    (∀ value ∈ values, value.Sound) → putFields values 0 [] = some args →
    (getFields args types 0 0 = some values ↔
      ∀ value ∈ values, value.ShortKeys)

theorem sum_extra_append (front rest : List FieldValue) (value : FieldValue) :
    ((front ++ value :: rest).map FieldValue.extra).sum =
      (front.map FieldValue.extra).sum + value.extra +
        (rest.map FieldValue.extra).sum := by
  simp only [List.map_append, List.map_cons, List.sum_append, List.sum_cons,
    Nat.add_assoc]

/-- Behind a table there are zeros, and the table is empty. -/
theorem zeros_of_zerosBehindTables {front rest : List FieldValue}
    {table : FieldTable} {args : List UInt8}
    (h : ZerosBehindTables
      ((front ++ .table table :: rest).map FieldValue.type))
    (hput : putFields (front ++ .table table :: rest) 0 [] = some args)
    (hrest : rest ≠ []) :
    table = ∅ ∧ rest = (rest.map FieldValue.type).map zero := by
  have hlength := length_putFields (fun hpos => (Nat.lt_irrefl 0 hpos).elim)
    hput
  have hle := length_putFields_le hput (Nat.zero_le _)
  rw [List.length_nil, Nat.zero_add] at hlength
  constructor
  · obtain ⟨value, rest, rfl⟩ := List.exists_cons_of_ne_nil hrest
    have hroom := h (front.map FieldValue.type ++ [.table]) value.type
      (rest.map FieldValue.type) (by simp [FieldValue.type]) (by simp)
    have hspare : value.type.spare ≤ 6 := by
      cases value.type <;> decide
    rw [sum_extra_append] at hlength
    by_contra hne
    have hextra : 6 ≤ (FieldValue.table table).extra :=
      @spare_le_extra (.table table) fun heq => hne (FieldValue.table.inj heq)
    omega
  · rw [List.map_map]
    refine ((List.map_congr_left ?_).trans (List.map_id rest)).symm
    intro value hmem
    by_contra hne
    obtain ⟨r₁, r₂, rfl⟩ := List.append_of_mem hmem
    have hroom := h (front.map FieldValue.type ++
        .table :: r₁.map FieldValue.type) value.type
      (r₂.map FieldValue.type) (by simp [FieldValue.type]) (by simp)
    have hextra := spare_le_extra fun heq => hne heq.symm
    rw [← List.cons_append, ← List.append_assoc, sum_extra_append] at hlength
    rw [← List.cons_append, ← List.append_assoc] at hroom
    omega

theorem roundTrips_of_zerosBehindTables {types : List FieldType}
    (hruns : BitRuns 0 types) (h : ZerosBehindTables types) :
    RoundTrips types := by
  rintro values args rfl hsound hput
  refine ⟨getFields_shortKeys, ?_⟩
  intro hkeys
  by_cases htable : .table ∈ values.map FieldValue.type
  · obtain ⟨front, table, rest, rfl, htables⟩ := exists_first_table htable
    rw [List.forall_mem_append, List.forall_mem_cons] at hsound hkeys
    obtain ⟨mid, hfront, hrest, hget⟩ := getFields_table htables hsound.1
      hkeys.2.1 hruns hput
    rw [hget]
    by_cases hnil : rest = []
    · subst hnil
      rfl
    · obtain ⟨rfl, hzeros⟩ := zeros_of_zerosBehindTables h hput hnil
      rw [List.map_append] at hruns
      have hruns' : BitRuns 0 (rest.map FieldValue.type) :=
        (bitRuns_append hruns).2
      rw [hzeros] at hrest
      have hargs := putFields_zeros
        (fun hpos => (Nat.lt_irrefl 0 hpos).elim) hrest
      have hrun : List.replicate (minSize 0 (rest.map FieldValue.type)) 0 <+:
          args.drop mid.length := by
        have htable := fieldBytes_zero .table
        rw [hargs, List.append_assoc, List.drop_left]
        refine zeros_take (Nat.le_add_left _ 4) ?_
        rw [← List.replicate_append_replicate]
        exact (congrArg (· ++ _) htable) ▸ List.prefix_rfl
      rw [getFields_zeros hruns' (by simpa using hrun), ← hzeros]
      rfl
  · have htables : ∀ value ∈ values, value.type ≠ .table := by
      intro value hmem heq
      exact htable (List.mem_map.mpr ⟨value, hmem, heq⟩)
    obtain ⟨hopen, _⟩ := putFields_extends hruns (open_zero []) hput
    have hinitial := getFields_initial [] htables hsound hruns (open_zero [])
      hput (Extends.refl hopen)
    rw [List.append_nil] at hinitial
    refine hinitial.trans ?_
    simp [getFields]

theorem sum_extra_zero (types : List FieldType) :
    ((types.map zero).map FieldValue.extra).sum = 0 := by
  induction types with
  | nil => rfl
  | cons type types ih =>
      have hextra : type.zero.extra = 0 := by
        cases type with
        | table => simp [zero, FieldValue.extra, toList_empty]
        | bit | octet | short | long | longlong | timestamp | shortstr
        | longstr => rfl
      rw [List.map_cons, List.map_cons, List.sum_cons, ih, hextra]

/-- The zeros at the beginning of a buffer, of which all but four are followed
by a value that is not zero. -/
theorem zeros_putFields_nonzero {type : FieldType} {values : List FieldValue}
    {bitOffset n : Nat} {out : List UInt8} (hn : 4 ≤ n)
    (hruns : BitRuns bitOffset (type :: values.map FieldValue.type))
    (hopen : Open bitOffset (List.replicate n 0))
    (hput : putFields (type.nonzero :: values) bitOffset
      (List.replicate n 0) = some out) :
    List.replicate (n - 4 + minSize bitOffset [type]) 0 <+: out := by
  have hruns' : BitRuns bitOffset
      ((type.nonzero :: values).map FieldValue.type) := by
    rw [List.map_cons, type_nonzero]
    exact hruns
  by_cases hbit : type = .bit
  · subst hbit
    obtain ⟨hopen', hextends⟩ := putFields_extends hruns' hopen hput
    have hout := hextends out (Extends.refl hopen')
    have hrun : List.replicate (n - 1) 0 <+: out := by
      unfold Extends at hout
      split at hout
      · obtain ⟨byte, more, rfl, _⟩ := hout
        rw [List.dropLast_replicate]
        exact List.prefix_append _ _
      · exact zeros_take (Nat.sub_le n 1) hout
    refine zeros_take ?_ hrun
    have hsize : minSize bitOffset [.bit] ≤ 1 := by
      simp only [minSize]
      split <;> omega
    omega
  · have hne : type.nonzero.type ≠ .bit := by
      rw [type_nonzero]
      exact hbit
    rw [putFields_cons_of_ne hne, Option.bind_eq_some_iff] at hput
    obtain ⟨args', hfield, hput⟩ := hput
    obtain ⟨_, rfl⟩ := putField_eq_some.mp hfield
    rw [(cons_of_ne hbit bitOffset _).2.2] at hruns
    obtain ⟨hopen', hextends⟩ := putFields_extends hruns (open_zero _) hput
    have hout : List.replicate n 0 ++ fieldBytes type.nonzero <+: out :=
      hextends out (Extends.refl hopen')
    have hbytes : List.replicate (type.width - 4) 0 <+:
        fieldBytes type.nonzero := by
      cases type with
      | table => exact List.nil_prefix
      | bit | octet | short | long | longlong | timestamp | shortstr
      | longstr => decide
    have hsize : minSize bitOffset [type] = type.width :=
      (cons_of_ne hbit bitOffset []).2.1
    rw [hsize]
    refine zeros_take (n := n + (type.width - 4)) (by omega) ?_
    rw [← List.replicate_append_replicate]
    exact ((List.prefix_append_right_inj _).mpr hbytes).trans hout

/-- Values behind a table: one is not zero. -/
def behindTable (between : List FieldType) (type : FieldType)
    (rest : List FieldType) : List FieldValue :=
  between.map zero ++ type.nonzero :: rest.map zero

section BehindTable

variable {front between rest : List FieldType} {type : FieldType}

theorem map_type_behindTable :
    (behindTable between type rest).map FieldValue.type =
      between ++ type :: rest := by
  simp only [behindTable, List.map_append, List.map_cons, map_type_zero,
    type_nonzero]

theorem behindTable_sound {value : FieldValue}
    (hmem : value ∈ front.map zero ++ .table ∅ ::
      behindTable between type rest) : value.Sound ∧ value.ShortKeys := by
  simp only [behindTable, List.mem_append, List.mem_cons, List.mem_map] at hmem
  rcases hmem with ⟨t, _, rfl⟩ | rfl | ⟨t, _, rfl⟩ | rfl | ⟨t, _, rfl⟩
  · exact t.zero_sound
  · exact FieldType.table.zero_sound
  · exact t.zero_sound
  · exact type.nonzero_sound
  · exact t.zero_sound

theorem sum_extra_behindTable :
    ((front.map zero ++ .table ∅ :: behindTable between type rest).map
      FieldValue.extra).sum = type.spare := by
  have hempty : (FieldValue.table ∅).extra = 0 := by
    simp [FieldValue.extra, toList_empty]
  rw [behindTable, sum_extra_append, sum_extra_append, sum_extra_zero,
    sum_extra_zero, sum_extra_zero, extra_nonzero, hempty]
  omega

/-- Where an empty table begins there are as many zeros as the fields behind it
take, up to the one that is not zero. -/
theorem zeros_behindTable {n : Nat} {args : List UInt8}
    (hruns : BitRuns 0 (between ++ type :: rest))
    (hput : putFields (behindTable between type rest) 0
      (List.replicate n 0 ++ tableBytes ∅) = some args) :
    List.replicate (minSize 0 (between ++ [type])) 0 <+: args.drop n := by
  have htable : tableBytes ∅ = List.replicate 4 0 := fieldBytes_zero .table
  rw [htable, List.replicate_append_replicate, behindTable, putFields_append,
    map_type_zero, Option.bind_eq_some_iff] at hput
  obtain ⟨mid, hmid, hput⟩ := hput
  have hopen : Open (bitsAfter 0 between) mid := by
    have hopen := (putFields_extends (by
      rw [map_type_zero]
      exact (bitRuns_append hruns).1) (open_zero _) hmid).1
    rw [map_type_zero] at hopen
    exact hopen
  rw [putFields_zeros (fun hpos => (Nat.lt_irrefl 0 hpos).elim) hmid,
    List.replicate_append_replicate] at hput hopen
  have hzeros := zeros_putFields_nonzero (by omega) (by
    rw [map_type_zero]
    exact (bitRuns_append hruns).2) hopen hput
  rw [← Nat.zero_add n]
  refine zeros_drop ?_
  rw [List.drop_zero, minSize_append]
  exact zeros_take (by omega) hzeros

end BehindTable

/-- A value that follows a table is not taken if there is room for it. -/
theorem zerosBehindTables_of_roundTrips {types : List FieldType}
    (hruns : BitRuns 0 types) (h : RoundTrips types) :
    ZerosBehindTables types := by
  rintro front type rest rfl htable
  by_contra hroom
  obtain ⟨front, between, rfl, hnot⟩ := List.eq_append_cons_of_mem htable
  have htypes : (front.map zero ++ .table ∅ ::
      behindTable between type rest).map FieldValue.type =
      front ++ .table :: between ++ type :: rest := by
    rw [List.map_append, List.map_cons, map_type_behindTable, map_type_zero,
      List.append_assoc]
    rfl
  obtain ⟨args, hput⟩ := @putFields_fits _ 0 []
    (fun hpos => (Nat.lt_irrefl 0 hpos).elim)
    (show 0 + minSize 0 ((front.map zero ++ .table ∅ ::
      behindTable between type rest).map FieldValue.type) + _ ≤ frameMinSize by
      rw [sum_extra_behindTable, htypes]
      omega)
  have hround := (h _ args htypes
    (fun value hmem => (behindTable_sound hmem).1) hput).mpr
    fun value hmem => (behindTable_sound hmem).2
  rw [← htypes] at hruns hround
  have htables : ∀ value ∈ front.map zero, value.type ≠ .table := by
    intro value hmem htype
    obtain ⟨t, ht, rfl⟩ := List.mem_map.mp hmem
    rw [type_zero] at htype
    exact hnot (htype ▸ ht)
  have hsound : ∀ value ∈ front.map zero, value.Sound := by
    intro value hmem
    obtain ⟨t, _, rfl⟩ := List.mem_map.mp hmem
    exact t.zero_sound.1
  obtain ⟨mid, hfront, hrest, hget⟩ := getFields_table htables hsound
    FieldType.table.zero_sound.2 hruns hput
  have hread : getFields args ((between ++ [type]) ++ rest) 0 mid.length =
      some (behindTable between type rest) := by
    rw [hget] at hround
    obtain ⟨values, hvalues, heq⟩ := Option.map_eq_some_iff.mp hround
    rw [List.append_assoc, List.singleton_append, ← map_type_behindTable,
      hvalues]
    exact congrArg some (List.cons.inj (List.append_cancel_left heq)).2
  -- the same fields, taken from the zeros of the table and those behind it
  rw [List.map_append] at hruns
  have hruns' : BitRuns 0 (between ++ type :: rest) :=
    map_type_behindTable ▸ (bitRuns_append hruns).2
  have hmid := putFields_zeros (fun hpos => (Nat.lt_irrefl 0 hpos).elim) hfront
  rw [List.nil_append] at hmid
  rw [hmid] at hrest
  have hrun := zeros_behindTable hruns' hrest
  rw [← List.singleton_append, ← List.append_assoc] at hruns'
  have hfirst := getFields_of_append hread
  rw [hmid, List.length_replicate, getFields_zeros (bitRuns_append hruns').1
    (by simpa using hrun), Option.some.injEq] at hfirst
  have hlength : (between ++ [type]).length = (between.map zero).length + 1 := by
    rw [List.length_append, List.length_map, List.length_singleton]
  rw [hlength, behindTable, List.map_append, List.take_length_add_append]
    at hfirst
  have hlast := List.append_cancel_left hfirst
  exact type.nonzero_ne_zero (List.cons.inj hlast).1.symm

theorem zerosBehindTables_of_last {types : List FieldType}
    (h : .table ∉ types.dropLast) : ZerosBehindTables types := by
  rintro front type rest rfl htable
  refine (h ?_).elim
  rw [List.dropLast_append_of_ne_nil (by simp)]
  exact List.mem_append_left _ htable

/-! ## The switches -/

variable {ν : Type} {classes : List (ClassDef ν)}

/-- The definitions the templates can be used for: no case of a switch occurs
twice, and there are no nine bits in a row. -/
structure WellFormed (classes : List (ClassDef ν)) : Prop where
  classIds : (classes.map ClassDef.id).Nodup
  methodIds : ∀ c ∈ classes, (c.methods.map MethodDef.id).Nodup
  bits : ∀ c ∈ classes, ∀ m ∈ c.methods, EightBits m.fields

theorem caseOf_of_mem (h : WellFormed classes)
    {c : ClassDef ν} {m : MethodDef ν} (hc : c ∈ classes)
    (hm : m ∈ c.methods) : caseOf classes c.id m.id = some m := by
  have hmethods := h.methodIds c hc
  obtain ⟨before, after, rfl⟩ := List.append_of_mem hc
  have hbefore : ∀ c' ∈ before, decide (c'.id ≠ c.id) = true := by
    intro c' hc'
    have hnodup := h.classIds
    rw [List.map_append, List.map_cons, List.nodup_append] at hnodup
    rw [decide_eq_true_iff]
    exact hnodup.2.2 _ (List.mem_map_of_mem hc') _ (List.mem_cons_self ..)
  have hfind : c.methods.find? (fun m' => m'.id = m.id) = some m := by
    cases hfound : c.methods.find? (fun m' => decide (m'.id = m.id)) with
    | none =>
        have hnot := List.find?_eq_none.mp hfound m hm
        exact (hnot (decide_eq_true rfl)).elim
    | some m' =>
        have hfound' := List.find?_some hfound
        have hid : m'.id = m.id := of_decide_eq_true hfound'
        rw [List.inj_on_of_nodup_map hmethods
          (List.mem_of_find?_eq_some hfound) hm hid]
  rw [caseOf, List.dropWhile_append_of_pos hbefore,
    List.dropWhile_cons_of_neg (by simp), List.flatMap_cons, List.find?_append,
    hfind]
  rfl

theorem caseOf_eq_none_iff {classId methodId : UInt16} :
    caseOf classes classId methodId = none ↔
      ∀ c ∈ classes.dropWhile fun c => c.id ≠ classId, ∀ m ∈ c.methods,
        m.id ≠ methodId := by
  rw [caseOf, List.find?_eq_none]
  simp only [List.mem_flatMap, decide_eq_true_eq]
  constructor
  · exact fun h c hc m hm => h m ⟨c, hc, hm⟩
  · rintro h m ⟨c, hc, hm⟩
    exact h c hc m hm

theorem exists_unmarshal (h : WellFormed classes)
    {classId methodId : UInt16} {m : MethodDef ν}
    (hcase : caseOf classes classId methodId = some m) (channel : UInt16) :
    ∃ args call, unmarshal classes ⟨channel, classId, methodId, args⟩ =
      some (some call) := by
  obtain ⟨c, hc, hm⟩ := List.mem_flatMap.mp (caseOf_eq_some hcase).2.1
  have hruns : BitRuns 0 m.fields :=
    bitRuns_of_eightBits (Nat.zero_le _) (h.bits c hc m hm)
  have hget := @getFields_zeros _ 0 0 (List.replicate (minSize 0 m.fields) 0)
    hruns (by simp)
  refine ⟨List.replicate (minSize 0 m.fields) 0,
    ⟨m.name, channel, m.fields.map zero⟩, ?_⟩
  rw [unmarshal, hcase]
  simp only [hget, Option.map_some]

/-- The marshaller and the unmarshaller agree about the tuples with short keys,
and about no others, exactly when nothing but zeros can follow a table.  A pair
that is not defined fires no callback exactly when the classes after its class
have no such method, either. -/
theorem marshaller_unmarshaller_agree {classes : List (ClassDef ν)}
    (h : WellFormed classes) :
    (∀ c ∈ classes, ∀ m ∈ c.methods,
      ((∀ channel values cmd, values.map FieldValue.type = m.fields →
          (∀ value ∈ values, value.Sound) →
          marshal c.id m channel values = some cmd →
          (unmarshal classes cmd = some (some ⟨m.name, channel, values⟩) ↔
            ∀ value ∈ values, value.ShortKeys)) ↔
        ZerosBehindTables m.fields)) ∧
    ∀ classId methodId,
      (¬ ∃ c ∈ classes, c.id = classId ∧
        ∃ m ∈ c.methods, m.id = methodId) →
      ((∀ channel args call,
          unmarshal classes ⟨channel, classId, methodId, args⟩ ≠
            some (some call)) ↔
        ∀ c ∈ classes.dropWhile fun c => c.id ≠ classId, ∀ m ∈ c.methods,
          m.id ≠ methodId) := by
  constructor
  · intro c hc m hm
    have hruns : BitRuns 0 m.fields :=
      bitRuns_of_eightBits (Nat.zero_le _) (h.bits c hc m hm)
    have hcall : ∀ channel values args,
        unmarshal classes ⟨channel, c.id, m.id, args⟩ =
            some (some ⟨m.name, channel, values⟩) ↔
          getFields args m.fields 0 0 = some values := by
      intro channel values args
      rw [unmarshal, caseOf_of_mem h hc hm]
      simp
    constructor
    · intro hagree
      refine zerosBehindTables_of_roundTrips hruns ?_
      intro values args htypes hsound hput
      rw [← hcall 0]
      refine hagree 0 values _ htypes hsound ?_
      rw [marshal, hput]
      rfl
    · intro hzeros channel values cmd htypes hsound hmarshal
      obtain ⟨args, hput, rfl⟩ := Option.map_eq_some_iff.mp hmarshal
      rw [hcall]
      exact roundTrips_of_zerosBehindTables hruns hzeros values args htypes
        hsound hput
  · intro classId methodId _
    rw [← caseOf_eq_none_iff]
    constructor
    · intro hnone
      cases hcase : caseOf classes classId methodId with
      | none => rfl
      | some m =>
          obtain ⟨args, call, hfires⟩ := exists_unmarshal h hcase 0
          exact (hnone 0 args call hfires).elim
    · intro hcase channel args call
      rw [unmarshal, hcase]
      simp

theorem amqpClasses_wellFormed : WellFormed amqpClasses where
  classIds := by decide
  methodIds := by decide
  bits := by
    unfold EightBits
    decide

/-- `connection.start` and `queue.declare`. -/
def startMethod : MethodDef AmqpMethod :=
  ⟨.connectionStart, 10, [.octet, .octet, .table, .longstr, .longstr]⟩

def declareMethod : MethodDef AmqpMethod :=
  ⟨.queueDeclare, 10,
    [.short, .shortstr, .bit, .bit, .bit, .bit, .bit, .table]⟩

/-- The arguments of `queue.declare`, with a table at the end. -/
def declareValues (table : FieldTable) : List FieldValue :=
  [.short 0, .shortstr [113], .bit false, .bit true, .bit false, .bit false,
    .bit true, .table table]

/-- `queue.declare` comes out as it went in. -/
theorem marshaller_unmarshaller_agree_declare :
    WellFormed amqpClasses ∧ ZerosBehindTables declareMethod.fields ∧
      ∃ cmd, marshal queueId declareMethod 1
          (declareValues ((∅ : FieldTable).insert [107] [118])) = some cmd ∧
        unmarshal amqpClasses cmd = some (some ⟨.queueDeclare, 1,
          declareValues ((∅ : FieldTable).insert [107] [118])⟩) := by
  have hlast : ZerosBehindTables declareMethod.fields :=
    zerosBehindTables_of_last (by decide)
  have htable : ((∅ : FieldTable).insert [107] [118]).toList =
      [([107], [118])] := by decide +kernel
  refine ⟨amqpClasses_wellFormed, hlast, _, rfl, ?_⟩
  have hagree := ((marshaller_unmarshaller_agree amqpClasses_wellFormed).1
    queueClass (by simp [amqpClasses]) declareMethod
    (List.mem_cons_self ..)).mpr hlast
  refine (hagree 1 _ _ rfl ?_ rfl).mpr ?_
  · simp [declareValues, FieldValue.Sound]
  · simp only [declareValues, List.forall_mem_cons, FieldValue.ShortKeys,
      htable]
    simp

/-- The strings behind the table of `connection.start` come out shifted by one;
`basic.deliver` is called for a class that has no such method; and a key of 256
bytes fails an assertion. -/
theorem marshaller_unmarshaller_disagree :
    ((marshal connectionId startMethod 0
        [.octet 0, .octet 9, .table ∅, .longstr [80], .longstr []]).any
      fun cmd => (unmarshal amqpClasses cmd).map (Option.map fun call =>
          (call.method, call.args.map fieldBytes)) =
        some (some (.connectionStart,
          [.octet 0, .octet 9, .table ∅, .longstr [], .longstr [80]].map
            fieldBytes))) = true ∧
    (unmarshal amqpClasses
        ⟨0, connectionId, basicDeliverId, List.replicate 12 0⟩).map
          (Option.map MethodCall.method) = some (some .basicDeliver) ∧
    ((marshal queueId declareMethod 1 (declareValues
        ((∅ : FieldTable).insert (List.replicate 256 107) []))).any
      fun cmd => (unmarshal amqpClasses cmd).isNone) = true := by
  decide +kernel

end ZeroMQ
