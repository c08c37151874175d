import Mathlib.Logic.Basic

/-!
# Integers in network byte order

The functions `put_uint16`, `get_uint16` and their like for 32 and 64 bits of
`libzmq/zmq/wire.hpp`, on lists of bytes.

## Main results

* `getLsbD_maskShift` — the byte of a word at bit `k`, shifted back, has the
  bits `k` to `k + 7` of the word and no others.
* `getUint16_putUint16`, `getUint32_putUint32`, `getUint64_putUint64` — reading
  back what was written.
-/

namespace ZeroMQ

/-- `put_uint64`: the eight bytes of the value, the most significant first. -/
def putUint64 (value : UInt64) : List UInt8 :=
  [((value >>> 56) &&& 0xff).toUInt8, ((value >>> 48) &&& 0xff).toUInt8,
    ((value >>> 40) &&& 0xff).toUInt8, ((value >>> 32) &&& 0xff).toUInt8,
    ((value >>> 24) &&& 0xff).toUInt8, ((value >>> 16) &&& 0xff).toUInt8,
    ((value >>> 8) &&& 0xff).toUInt8, (value &&& 0xff).toUInt8]

/-- `get_uint64`, on the first eight bytes of the buffer. -/
def getUint64 : List UInt8 → UInt64
  | b0 :: b1 :: b2 :: b3 :: b4 :: b5 :: b6 :: b7 :: _ =>
      (b0.toUInt64 <<< 56) ||| (b1.toUInt64 <<< 48) |||
        (b2.toUInt64 <<< 40) ||| (b3.toUInt64 <<< 32) |||
        (b4.toUInt64 <<< 24) ||| (b5.toUInt64 <<< 16) |||
        (b6.toUInt64 <<< 8) ||| b7.toUInt64
  | _ => 0

/-- `put_uint32`. -/
def putUint32 (value : UInt32) : List UInt8 :=
  [((value >>> 24) &&& 0xff).toUInt8, ((value >>> 16) &&& 0xff).toUInt8,
    ((value >>> 8) &&& 0xff).toUInt8, (value &&& 0xff).toUInt8]

/-- `get_uint32`, on the first four bytes of the buffer. -/
def getUint32 : List UInt8 → UInt32
  | b0 :: b1 :: b2 :: b3 :: _ =>
      (b0.toUInt32 <<< 24) ||| (b1.toUInt32 <<< 16) |||
        (b2.toUInt32 <<< 8) ||| b3.toUInt32
  | _ => 0

/-- `put_uint16`. -/
def putUint16 (value : UInt16) : List UInt8 :=
  [((value >>> 8) &&& 0xff).toUInt8, (value &&& 0xff).toUInt8]

/-- `get_uint16`, on the first two bytes of the buffer. -/
def getUint16 : List UInt8 → UInt16
  | b0 :: b1 :: _ => (b0.toUInt16 <<< 8) ||| b1.toUInt16
  | _ => 0

theorem getLsbD_mask {w j : Nat} (hw : 8 ≤ w) (hj : j < 8) :
    (255#w).getLsbD j = true := by
  have h255 : (255 : Nat) = 2 ^ 8 - 1 := rfl
  simp only [BitVec.getLsbD_ofNat, h255, Nat.testBit_two_pow_sub_one, hj,
    decide_true, Bool.and_true, decide_eq_true_eq]
  omega

/-- The byte of `v` at bit `k`, moved back to its place. -/
theorem getLsbD_maskShift {w : Nat} (hw : 8 ≤ w) (v : BitVec w) (k : Nat)
    {i : Nat} (hi : i < w) :
    (((((v >>> k) &&& 255#w).setWidth 8).setWidth w) <<< k).getLsbD i =
      (v.getLsbD i && (decide (k ≤ i) && decide (i < k + 8))) := by
  by_cases hk : k ≤ i
  · have hback : k + (i - k) = i := by omega
    by_cases hik : i < k + 8
    · have hj : i - k < 8 := by omega
      have hj' : i - k < w := by omega
      simp [hi, hk, hik, hj, hj', hback, getLsbD_mask hw hj,
        Nat.not_lt.mpr hk]
    · have hj : ¬ i - k < 8 := by omega
      simp [hi, hk, hik, hj]
  · simp [hi, hk, Nat.lt_of_not_le hk]

theorem getUint16_putUint16 (value : UInt16) :
    getUint16 (putUint16 value) = value := by
  apply UInt16.toBitVec_inj.mp
  apply BitVec.eq_of_getLsbD_eq
  intro i hi
  have hbyte k := getLsbD_maskShift (show 8 ≤ 16 by decide) value.toBitVec k hi
  have h0 := hbyte 0
  rw [BitVec.ushiftRight_zero, BitVec.shiftLeft_zero] at h0
  simp only [getUint16, putUint16, UInt16.toBitVec_or, BitVec.getLsbD_or]
  refine (congrArg₂ or (hbyte 8) h0).trans ?_
  -- The two ranges of bits cover the word.
  cases value.toBitVec.getLsbD i with
  | false => simp only [Bool.false_and, Bool.or_false]
  | true =>
      simp
      omega

theorem getUint32_putUint32 (value : UInt32) :
    getUint32 (putUint32 value) = value := by
  apply UInt32.toBitVec_inj.mp
  apply BitVec.eq_of_getLsbD_eq
  intro i hi
  have hbyte k := getLsbD_maskShift (show 8 ≤ 32 by decide) value.toBitVec k hi
  have h0 := hbyte 0
  rw [BitVec.ushiftRight_zero, BitVec.shiftLeft_zero] at h0
  simp only [getUint32, putUint32, UInt32.toBitVec_or, BitVec.getLsbD_or]
  refine (congrArg₂ or (congrArg₂ or (congrArg₂ or (hbyte 24) (hbyte 16))
    (hbyte 8)) h0).trans ?_
  cases value.toBitVec.getLsbD i with
  | false => simp only [Bool.false_and, Bool.or_false]
  | true =>
      simp
      omega

theorem getUint64_putUint64 (value : UInt64) :
    getUint64 (putUint64 value) = value := by
  apply UInt64.toBitVec_inj.mp
  apply BitVec.eq_of_getLsbD_eq
  intro i hi
  have hbyte k := getLsbD_maskShift (show 8 ≤ 64 by decide) value.toBitVec k hi
  have h0 := hbyte 0
  rw [BitVec.ushiftRight_zero, BitVec.shiftLeft_zero] at h0
  simp only [getUint64, putUint64, UInt64.toBitVec_or, BitVec.getLsbD_or]
  refine (congrArg₂ or (congrArg₂ or (congrArg₂ or (congrArg₂ or
    (congrArg₂ or (congrArg₂ or (congrArg₂ or (hbyte 56) (hbyte 48))
      (hbyte 40)) (hbyte 32)) (hbyte 24)) (hbyte 16)) (hbyte 8)) h0).trans ?_
  -- The eight ranges of bits cover the word.
  cases value.toBitVec.getLsbD i with
  | false => simp only [Bool.false_and, Bool.or_false]
  | true =>
      simp
      omega

/-! Only the first bytes of a buffer are looked at. -/

theorem getUint16_append_of_le {bytes : List UInt8} (h : 2 ≤ bytes.length)
    (more : List UInt8) : getUint16 (bytes ++ more) = getUint16 bytes := by
  match bytes, h with
  | _ :: _ :: _, _ => rfl

theorem getUint32_append_of_le {bytes : List UInt8} (h : 4 ≤ bytes.length)
    (more : List UInt8) : getUint32 (bytes ++ more) = getUint32 bytes := by
  match bytes, h with
  | _ :: _ :: _ :: _ :: _, _ => rfl

theorem getUint16_append (value : UInt16) (more : List UInt8) :
    getUint16 (putUint16 value ++ more) = value :=
  getUint16_putUint16 value

theorem getUint32_append (value : UInt32) (more : List UInt8) :
    getUint32 (putUint32 value ++ more) = value :=
  getUint32_putUint32 value

theorem getUint64_append (value : UInt64) (more : List UInt8) :
    getUint64 (putUint64 value ++ more) = value :=
  getUint64_putUint64 value

end ZeroMQ
