import Mathlib.Tactic.Common

/-!
# The locator protocol

A `locator_t` (`libzmq/locator.cpp`) and the `zmq_server`
(`zmq_server/zmq_server.cpp`) exchange commands over a blocking TCP socket.
Strings are preceded by one byte with their size; a list of attributes is ended
by a zero in the place of the size of a key.  Each side has a writer and a
parser of its own.

The parsers differ in one point.  The server compares the result of every
`tcp_socket_t::read` with the size it asked for; the client does not look at it.
Since a `recv` that returns 0 is reported as -1, a string of size zero fails the
comparison.

## Main definitions

* `TcpSocket` — one end of a connection, with `read` and `write` as in
  `libzmq/tcp_socket.cpp`.
* `TcpSocket.readFramed`, `TcpSocket.readAttrs` — the parsers of both sides.
* `attrFrames`, `createCommand`, `getCommand` — what is on the wire.

## Main results

* `TcpSocket.readAttrs_iff` — the attributes parsed are those on the wire.
* `AttrList.insertAll_toList` — a map is made up again of its entries.
-/

namespace ZeroMQ

/-- The contents of a `std::string`. -/
abbrev Bytes := List UInt8

/-- `attr_list_t`, a `std::map`. -/
abbrev AttrList := Std.ExtTreeMap Bytes Bytes

/-- `attrs [key] = value` for the entries one after the other. -/
def AttrList.insertAll (attrs : AttrList) (l : List (Bytes × Bytes)) :
    AttrList :=
  l.foldl (fun acc attr => acc.insert attr.1 attr.2) attrs

/-- The entries of a map, inserted into an empty one. -/
theorem AttrList.insertAll_toList (attrs : AttrList) :
    AttrList.insertAll ∅ attrs.toList = attrs := by
  rw [insertAll, ← Std.ExtTreeMap.ofList_eq_foldl]
  apply Std.ExtTreeMap.ext_getElem?
  intro key
  by_cases hmem : key ∈ attrs
  · have hentry : (key, attrs[key]) ∈ attrs.toList := by
      rw [Std.ExtTreeMap.mem_toList_iff_getElem?_eq_some]
      exact Std.ExtTreeMap.getElem?_eq_some_getElem hmem
    rw [Std.ExtTreeMap.getElem?_ofList_of_mem Std.ReflCmp.compare_self
      Std.ExtTreeMap.distinct_keys_toList hentry]
    exact (Std.ExtTreeMap.getElem?_eq_some_getElem hmem).symm
  · have hkeys : (attrs.toList.map Prod.fst).contains key = false := by
      rw [Std.ExtTreeMap.map_fst_toList_eq_keys, List.contains_eq_mem]
      simpa using hmem
    rw [Std.ExtTreeMap.getElem?_ofList_of_contains_eq_false hkeys,
      Std.ExtTreeMap.getElem?_eq_none hmem]

/-! ## Command IDs -/

def createId : UInt8 := 1
def createOkId : UInt8 := 2
def getId : UInt8 := 3
def getOkId : UInt8 := 4
def failId : UInt8 := 5

/-! ## `tcp_socket_t` -/

/-- One end of a connection: what can still be received before the connection is
cut, what has been sent, and the results of the calls of `send` to come.  When
no result is listed, `send` takes everything.  A read that finds nothing has
come to the cut: with the connection open and the rest of a command still to
come, the code would block there until that is sent or the connection is cut. -/
structure TcpSocket where
  input : List UInt8
  output : List UInt8
  sends : List Int
  deriving DecidableEq, Repr

namespace TcpSocket

variable {size : Nat}

/-- `read`, on a blocking socket: the result and the bytes received. -/
def read (s : TcpSocket) (size : Nat) : Int × List UInt8 × TcpSocket :=
  let data := s.input.take size
  if data = [] then (-1, [], s)
  else (data.length, data, { s with input := s.input.drop size })

/-- `write`. -/
def write (s : TcpSocket) (data : List UInt8) : Int × TcpSocket :=
  match s.sends with
  | [] => (data.length, { s with output := s.output ++ data })
  | result :: sends =>
      (min result data.length,
        { s with output := s.output ++ data.take result.toNat, sends := sends })

/-- Read a string of the given size.  A caller that is `checked` gives up unless
`read` has returned the size; another one goes on, and gets the string if it has
been received. -/
def readString (checked : Bool) (s : TcpSocket) (size : Nat) :
    Option (Bytes × TcpSocket) :=
  let (n, data, s') := s.read size
  if checked then if n = size then some (data, s') else none
  else if data.length = size then some (data, s') else none

/-- Read one byte. -/
def readByte (s : TcpSocket) : Option (UInt8 × TcpSocket) :=
  (s.readString true 1).map fun (data, s') => (data.headD 0, s')

/-- Read the size of a string and the string. -/
def readFramed (checked : Bool) (s : TcpSocket) : Option (Bytes × TcpSocket) := do
  let (size, s) ← s.readByte
  s.readString checked size.toNat

/-- Read the size of a key and, unless it is the terminator, an attribute. -/
def readAttr (checked : Bool) (s : TcpSocket) :
    Option (Option (Bytes × Bytes) × TcpSocket) := do
  let (size, s) ← s.readByte
  if size = 0 then return (none, s)
  let (key, s) ← s.readString checked size.toNat
  let (value, s) ← s.readFramed checked
  return (some (key, value), s)

/-- The input is `data` and `rest`, and `s'` is left with the latter. -/
def Consumed (s : TcpSocket) (data : List UInt8) (s' : TcpSocket) : Prop :=
  s = { s' with input := data ++ s'.input }

theorem Consumed.length {s s' : TcpSocket} {data : List UInt8}
    (h : s.Consumed data s') :
    s.input.length = data.length + s'.input.length := by
  rw [h, List.length_append]

theorem read_of_nil {s : TcpSocket} (h : s.input.take size = []) :
    s.read size = (-1, [], s) :=
  if_pos h

theorem read_of_ne {s : TcpSocket} (h : s.input.take size ≠ []) :
    s.read size = (((s.input.take size).length : Int), s.input.take size,
      { s with input := s.input.drop size }) :=
  if_neg h

/-- A string that is read is the next thing in the input; a checked reader does
not read an empty one. -/
theorem readString_iff {checked : Bool} {s s' : TcpSocket} {data : Bytes} :
    s.readString checked size = some (data, s') ↔
      s.Consumed data s' ∧ data.length = size ∧
        (checked = true → data ≠ []) := by
  constructor
  · intro h
    by_cases hnil : s.input.take size = []
    · simp only [readString, read_of_nil hnil] at h
      cases checked with
      | true =>
          rw [if_pos rfl, if_neg (by omega)] at h
          cases h
      | false =>
          simp only [Bool.false_eq_true, if_false, List.length_nil] at h
          split at h
          · next hzero =>
              cases h
              exact ⟨rfl, hzero, nofun⟩
          · cases h
    · simp only [readString, read_of_ne hnil] at h
      have hlen : (s.input.take size).length = size ∧
          some (s.input.take size, { s with input := s.input.drop size }) =
            some (data, s') := by
        split at h
        · split at h
          · next hsize => exact ⟨by omega, h⟩
          · cases h
        · split at h
          · next hsize => exact ⟨hsize, h⟩
          · cases h
      obtain ⟨hsize, hpair⟩ := hlen
      cases hpair
      exact ⟨by simp [Consumed], hsize, fun _ => hnil⟩
  · rintro ⟨hcons, rfl, hne⟩
    have htake : s.input.take data.length = data := by rw [hcons, List.take_left]
    have hrest : { s with input := s.input.drop data.length } = s' := by
      rw [hcons, List.drop_left]
    by_cases hnil : data = []
    · have hread := read_of_nil (htake.trans hnil)
      subst hnil
      cases checked with
      | true => exact (hne rfl rfl).elim
      | false =>
          have hs : s = s' := by rw [hcons, List.nil_append]
          subst hs
          simp only [readString, hread]
          rfl
    · have hread : s.read data.length = _ :=
        read_of_ne (by rw [htake]; exact hnil)
      rw [htake, hrest] at hread
      simp only [readString, hread, if_true, ite_self]

theorem readByte_iff {s s' : TcpSocket} {b : UInt8} :
    s.readByte = some (b, s') ↔ s.Consumed [b] s' := by
  unfold readByte
  rw [Option.map_eq_some_iff]
  constructor
  · rintro ⟨⟨data, s''⟩, hread, hpair⟩
    obtain ⟨hcons, hlen, _⟩ := readString_iff.mp hread
    obtain ⟨b', rfl⟩ := List.length_eq_one_iff.mp hlen
    cases hpair
    exact hcons
  · intro hcons
    exact ⟨([b], s'), readString_iff.mpr ⟨hcons, rfl, by simp⟩, rfl⟩

theorem Consumed.trans {s s' s'' : TcpSocket} {data data' : List UInt8}
    (h : s.Consumed data s') (h' : s'.Consumed data' s'') :
    s.Consumed (data ++ data') s'' := by
  rw [Consumed, h, h', List.append_assoc]

theorem Consumed.split {s s'' : TcpSocket} {data data' : List UInt8}
    (h : s.Consumed (data ++ data') s'') :
    ∃ s', s.Consumed data s' ∧ s'.Consumed data' s'' :=
  ⟨{ s'' with input := data' ++ s''.input },
    by rw [Consumed, h, List.append_assoc], rfl⟩

end TcpSocket

/-! ## What is on the wire -/

/-- A string after its size. -/
def stringFrame (string : Bytes) : List UInt8 :=
  UInt8.ofNat string.length :: string

/-- An attribute. -/
def attrFrame (attr : Bytes × Bytes) : List UInt8 :=
  stringFrame attr.1 ++ stringFrame attr.2

/-- A list of attributes with its terminator. -/
def attrFrames (attrs : List (Bytes × Bytes)) : List UInt8 :=
  attrs.flatMap attrFrame ++ [0]

/-- The `create` command. -/
def createCommand (name : Bytes) (attrs : List (Bytes × Bytes)) : List UInt8 :=
  createId :: (stringFrame name ++ attrFrames attrs)

/-- The `get` command. -/
def getCommand (name : Bytes) : List UInt8 := getId :: stringFrame name

/-- A string whose size fits into one byte, and which a checked reader reads. -/
def Fits (checked : Bool) (string : Bytes) : Prop :=
  string.length < 256 ∧ (checked = true → string ≠ [])

/-- An attribute that can be told from the terminator. -/
def AttrFits (checked : Bool) (attr : Bytes × Bytes) : Prop :=
  Fits true attr.1 ∧ Fits checked attr.2

namespace TcpSocket

variable {checked : Bool} {s s' : TcpSocket} {attrs : AttrList}

theorem toNat_size {string : Bytes} (h : string.length < 256) :
    (UInt8.ofNat string.length).toNat = string.length := by
  rw [UInt8.toNat_ofNat']
  omega

theorem readFramed_iff {name : Bytes} :
    s.readFramed checked = some (name, s') ↔
      s.Consumed (stringFrame name) s' ∧ Fits checked name := by
  unfold readFramed
  rw [Option.bind_eq_bind, Option.bind_eq_some_iff]
  constructor
  · rintro ⟨⟨size, s₁⟩, hbyte, hstring⟩
    obtain ⟨hcons, hlen, hne⟩ := readString_iff.mp hstring
    have hsize : UInt8.ofNat name.length = size := by
      rw [hlen, UInt8.ofNat_toNat]
    have hlt : name.length < 256 := by
      rw [hlen]
      exact size.toNat_lt
    refine ⟨?_, hlt, hne⟩
    rw [stringFrame, hsize]
    exact (readByte_iff.mp hbyte).trans hcons
  · rintro ⟨hcons, hlt, hne⟩
    have hframe : s.Consumed ([UInt8.ofNat name.length] ++ name) s' := hcons
    obtain ⟨s₁, hbyte, hstring⟩ := hframe.split
    refine ⟨_, readByte_iff.mpr hbyte, readString_iff.mpr ⟨hstring, ?_, hne⟩⟩
    exact (toNat_size hlt).symm

theorem readAttr_cases {result : Option (Bytes × Bytes)}
    (h : s.readAttr checked = some (result, s')) :
    (s.Consumed [0] s' ∧ result = none) ∨
      ∃ attr, result = some attr ∧ s.Consumed (attrFrame attr) s' ∧
        AttrFits checked attr := by
  simp only [readAttr, Option.bind_eq_bind, Option.bind_eq_some_iff,
    Prod.exists] at h
  obtain ⟨size, s₁, hbyte, h⟩ := h
  have hbyte := readByte_iff.mp hbyte
  split at h
  · next hzero =>
      cases h
      exact .inl ⟨hzero ▸ hbyte, rfl⟩
  · next hzero =>
      simp only [Option.bind_eq_some_iff, Prod.exists] at h
      obtain ⟨key, s₂, hkey, value, s₃, hvalue, h⟩ := h
      cases h
      obtain ⟨hkey, hlen, _⟩ := readString_iff.mp hkey
      obtain ⟨hvalue, hfits⟩ := readFramed_iff.mp hvalue
      have hsize : UInt8.ofNat key.length = size := by
        rw [hlen, UInt8.ofNat_toNat]
      refine .inr ⟨(key, value), rfl, ?_, ⟨?_, fun _ hnil => ?_⟩, hfits⟩
      · have hframe := (hbyte.trans hkey).trans hvalue
        rwa [← hsize] at hframe
      · rw [hlen]
        exact size.toNat_lt
      · subst hnil
        exact hzero hsize.symm

theorem readAttr_of_terminator (h : s.Consumed [0] s') :
    s.readAttr checked = some (none, s') := by
  simp [readAttr, readByte_iff.mpr h]

theorem readAttr_of_frame {attr : Bytes × Bytes}
    (h : s.Consumed (attrFrame attr) s') (hfits : AttrFits checked attr) :
    s.readAttr checked = some (some attr, s') := by
  obtain ⟨⟨hlt, hne⟩, hvalue⟩ := hfits
  have hframe : s.Consumed ([UInt8.ofNat attr.1.length] ++
      (attr.1 ++ stringFrame attr.2)) s' := h
  obtain ⟨s₁, hbyte, hrest⟩ := hframe.split
  obtain ⟨s₂, hkey, hval⟩ := hrest.split
  have hsize : UInt8.ofNat attr.1.length ≠ 0 := by
    intro hzero
    have hnat := congrArg UInt8.toNat hzero
    rw [toNat_size hlt] at hnat
    exact hne rfl (List.length_eq_zero_iff.mp hnat)
  have hkey : s₁.readString checked (UInt8.ofNat attr.1.length).toNat =
      some (attr.1, s₂) :=
    readString_iff.mpr ⟨hkey, (toNat_size hlt).symm, fun _ => hne rfl⟩
  rw [readAttr, readByte_iff.mpr hbyte]
  simp only [Option.bind_eq_bind, Option.bind_some, if_neg hsize, hkey,
    readFramed_iff.mpr ⟨hval, hvalue⟩]
  rfl

theorem readAttr_lt {attr : Option (Bytes × Bytes)}
    (h : s.readAttr checked = some (attr, s')) :
    s'.input.length < s.input.length := by
  rcases readAttr_cases h with ⟨hcons, _⟩ | ⟨attr, _, hcons, _⟩
  · have := hcons.length
    rw [List.length_singleton] at this
    omega
  · have := hcons.length
    rw [attrFrame, stringFrame, List.cons_append, List.length_cons] at this
    omega

/-- Read the attributes up to the terminator into a map. -/
def readAttrs (checked : Bool) (s : TcpSocket) (attrs : AttrList) :
    Option (AttrList × TcpSocket) :=
  match _ : s.readAttr checked with
  | none => none
  | some (none, s') => some (attrs, s')
  | some (some (key, value), s') =>
      readAttrs checked s' (attrs.insert key value)
termination_by s.input.length
decreasing_by exact readAttr_lt (by assumption)

theorem readAttrs_of_terminator (h : s.readAttr checked = some (none, s')) :
    s.readAttrs checked attrs = some (attrs, s') := by
  unfold readAttrs
  split
  · next hread => rw [h] at hread; cases hread
  · next hread => rw [h] at hread; cases hread; rfl
  · next hread => rw [h] at hread; cases hread

theorem readAttrs_of_frame {attr : Bytes × Bytes}
    (h : s.readAttr checked = some (some attr, s')) :
    s.readAttrs checked attrs =
      s'.readAttrs checked (attrs.insert attr.1 attr.2) := by
  rw [readAttrs]
  split
  · next hread => rw [h] at hread; cases hread
  · next hread => rw [h] at hread; cases hread
  · next hread => rw [h] at hread; cases hread; rfl

theorem readAttrs_iff {attrs' : AttrList} :
    s.readAttrs checked attrs = some (attrs', s') ↔
      ∃ l, s.Consumed (attrFrames l) s' ∧ (∀ attr ∈ l, AttrFits checked attr) ∧
        attrs' = attrs.insertAll l := by
  constructor
  · intro h
    fun_induction readAttrs checked s attrs with
    | case1 s attrs hread => cases h
    | case2 s attrs s₁ hread =>
        cases h
        rcases readAttr_cases hread with ⟨hcons, _⟩ | ⟨attr, hsome, _⟩
        · exact ⟨[], hcons, by simp, rfl⟩
        · cases hsome
    | case3 s attrs key value s₁ hread ih =>
        obtain ⟨l, hcons, hfits, rfl⟩ := ih h
        rcases readAttr_cases hread with ⟨_, hnone⟩ | ⟨attr, hsome, hattr, hfit⟩
        · cases hnone
        · cases hsome
          refine ⟨(key, value) :: l, ?_, ?_, rfl⟩
          · have hall := hattr.trans hcons
            rwa [attrFrames, ← List.append_assoc] at hall
          · exact List.forall_mem_cons.mpr ⟨hfit, hfits⟩
  · rintro ⟨l, hcons, hfits, rfl⟩
    induction l generalizing s attrs with
    | nil => exact readAttrs_of_terminator (readAttr_of_terminator hcons)
    | cons attr l ih =>
        obtain ⟨hfit, hfits⟩ := List.forall_mem_cons.mp hfits
        rw [attrFrames, List.flatMap_cons, List.append_assoc] at hcons
        obtain ⟨s₁, hattr, hrest⟩ := hcons.split
        rw [readAttrs_of_frame (readAttr_of_frame hattr hfit), ih hrest hfits]
        rfl

end TcpSocket

end ZeroMQ
