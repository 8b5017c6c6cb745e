import BlackadderJNI.Bytes
import BlackadderJNI.Lib.BigEndian
import BlackadderJNI.Lib.Wire

/-!
# Integers in a byte array

Translation of `ByteHelper.java`.  Java bytes are signed: a byte that takes part in an expression
is sign-extended to `int` or `long` first, and a cast to `byte` keeps the low eight bits.

* `getBytesInt_eq`, `assembleInt_eq` (…)   the expressions of the source, by `BigEndian`;
* `Width.codec`                            the three widths as values of a fixed size;
* `getBytesAt_eq`, `getAt_eq`              the accesses in place are those of the codec;
* `inPlace_codec`                          reading, writing and exchanging writes in one array.
-/

namespace BA.Wrapper

/-! ## the functions of the source -/

/-- a byte in an `int` expression -/
def byteToInt (b : UInt8) : Int32 := b.toInt8.toInt32

/-- a byte in a `long` expression -/
def byteToLong (b : UInt8) : Int64 := b.toInt8.toInt64

namespace ByteHelper

def getBytesInt (value : Int32) : Bytes :=
  [(value >>> 24).toInt8.toUInt8, (value >>> 16).toInt8.toUInt8, (value >>> 8).toInt8.toUInt8,
    value.toInt8.toUInt8]

def getBytesLong (value : Int64) : Bytes :=
  [(value >>> 56).toInt8.toUInt8, (value >>> 48).toInt8.toUInt8, (value >>> 40).toInt8.toUInt8,
    (value >>> 32).toInt8.toUInt8, (value >>> 24).toInt8.toUInt8, (value >>> 16).toInt8.toUInt8,
    (value >>> 8).toInt8.toUInt8, (value >>> 0).toInt8.toUInt8]

/-- the `short` is promoted to `int` before it is shifted -/
def getBytesShort (value : Int16) : Bytes :=
  [(value.toInt32 >>> 8).toInt8.toUInt8, value.toInt8.toUInt8]

def assembleInt (b₀ b₁ b₂ b₃ : UInt8) : Int32 :=
  byteToInt b₀ <<< 24 ||| (byteToInt b₁ &&& 0xFF) <<< 16 ||| (byteToInt b₂ &&& 0xFF) <<< 8 |||
    (byteToInt b₃ &&& 0xFF) <<< 0

def assembleLong (b₀ b₁ b₂ b₃ b₄ b₅ b₆ b₇ : UInt8) : Int64 :=
  byteToLong b₀ <<< 56 ||| (byteToLong b₁ &&& 0xFF) <<< 48 ||| (byteToLong b₂ &&& 0xFF) <<< 40 |||
    (byteToLong b₃ &&& 0xFF) <<< 32 ||| (byteToLong b₄ &&& 0xFF) <<< 24 |||
    (byteToLong b₅ &&& 0xFF) <<< 16 ||| (byteToLong b₆ &&& 0xFF) <<< 8 |||
    (byteToLong b₇ &&& 0xFF) <<< 0

def assembleShort (b₀ b₁ : UInt8) : Int16 :=
  (byteToInt b₀ <<< 8 ||| byteToInt b₁ &&& 0xFF).toInt16

/-- `getInt(b, off)`; `none` is an `ArrayIndexOutOfBoundsException` -/
def getInt (b : Bytes) (off : Nat) : Option Int32 := do
  let b₀ ← b[off + 0]?
  let b₁ ← b[off + 1]?
  let b₂ ← b[off + 2]?
  let b₃ ← b[off + 3]?
  some (assembleInt b₀ b₁ b₂ b₃)

def getLong (b : Bytes) (off : Nat) : Option Int64 := do
  let b₀ ← b[off + 0]?
  let b₁ ← b[off + 1]?
  let b₂ ← b[off + 2]?
  let b₃ ← b[off + 3]?
  let b₄ ← b[off + 4]?
  let b₅ ← b[off + 5]?
  let b₆ ← b[off + 6]?
  let b₇ ← b[off + 7]?
  some (assembleLong b₀ b₁ b₂ b₃ b₄ b₅ b₆ b₇)

def getShort (b : Bytes) (off : Nat) : Option Int16 := do
  let b₀ ← b[off + 0]?
  let b₁ ← b[off + 1]?
  some (assembleShort b₀ b₁)

/-- `getBytes(int value, byte[] b, int off)`, one store after the other -/
def getBytesIntAt (value : Int32) (b : Bytes) (off : Nat) : Option Bytes :=
  Wire.writes b
    [(off + 0, [(value >>> 24).toInt8.toUInt8]), (off + 1, [(value >>> 16).toInt8.toUInt8]),
      (off + 2, [(value >>> 8).toInt8.toUInt8]), (off + 3, [(value >>> 0).toInt8.toUInt8])]

def getBytesLongAt (value : Int64) (b : Bytes) (off : Nat) : Option Bytes :=
  Wire.writes b
    [(off + 0, [(value >>> 56).toInt8.toUInt8]), (off + 1, [(value >>> 48).toInt8.toUInt8]),
      (off + 2, [(value >>> 40).toInt8.toUInt8]), (off + 3, [(value >>> 32).toInt8.toUInt8]),
      (off + 4, [(value >>> 24).toInt8.toUInt8]), (off + 5, [(value >>> 16).toInt8.toUInt8]),
      (off + 6, [(value >>> 8).toInt8.toUInt8]), (off + 7, [(value >>> 0).toInt8.toUInt8])]

def getBytesShortAt (value : Int16) (b : Bytes) (off : Nat) : Option Bytes :=
  Wire.writes b
    [(off + 0, [(value.toInt32 >>> 8).toInt8.toUInt8]),
      (off + 1, [(value.toInt32 >>> 0).toInt8.toUInt8])]

end ByteHelper

/-! ## the bytes and the value -/

open BigEndian ByteHelper

section
variable (b : UInt8) (i : Nat)

theorem intByte_eq (v s : Int32) (hs : (s.toBitVec.smod 32).toNat = 8 * i) :
    (v >>> s).toInt8.toUInt8 = byteAt v.toBitVec i :=
  sshiftRight_eq_byteAt v.toBitVec hs (by decide)

theorem longByte_eq (v s : Int64) (hs : (s.toBitVec.smod 64).toNat = 8 * i) :
    (v >>> s).toInt8.toUInt8 = byteAt v.toBitVec i :=
  sshiftRight_eq_byteAt v.toBitVec hs (by decide)

theorem intField_eq (s : Int32) (hs : (s.toBitVec.smod 32).toNat = 8 * i) :
    ((byteToInt b &&& 0xFF) <<< s).toBitVec = field 32 b i :=
  shiftLeft_eq_field b hs

theorem longField_eq (s : Int64) (hs : (s.toBitVec.smod 64).toNat = 8 * i) :
    ((byteToLong b &&& 0xFF) <<< s).toBitVec = field 64 b i :=
  shiftLeft_eq_field b hs

/-- the top byte is not masked -/
theorem intTop_eq (s : Int32) (hs : (s.toBitVec.smod 32).toNat = 8 * i) (hi : 32 ≤ 8 * i + 8) :
    (byteToInt b <<< s).toBitVec = field 32 b i :=
  shiftLeft_eq_top b hs hi

theorem longTop_eq (s : Int64) (hs : (s.toBitVec.smod 64).toNat = 8 * i) (hi : 64 ≤ 8 * i + 8) :
    (byteToLong b <<< s).toBitVec = field 64 b i :=
  shiftLeft_eq_top b hs hi

end

theorem assembleInt_eq (b₀ b₁ b₂ b₃ : UInt8) :
    (assembleInt b₀ b₁ b₂ b₃).toBitVec = ofBytes 32 [b₀, b₁, b₂, b₃] := by
  unfold assembleInt
  rw [Int32.toBitVec_or, Int32.toBitVec_or, Int32.toBitVec_or, intTop_eq b₀ 3 24 rfl (by decide),
    intField_eq b₁ 2 16 rfl, intField_eq b₂ 1 8 rfl, intField_eq b₃ 0 0 rfl, BitVec.or_assoc,
    BitVec.or_assoc]
  show _ = field 32 b₀ 3 ||| (field 32 b₁ 2 ||| (field 32 b₂ 1 ||| ofBytes 32 [b₃]))
  rw [ofBytes_singleton]

example : assembleInt 128 0 0 255 = -2147483393 := by decide

theorem assembleLong_eq (b₀ b₁ b₂ b₃ b₄ b₅ b₆ b₇ : UInt8) :
    (assembleLong b₀ b₁ b₂ b₃ b₄ b₅ b₆ b₇).toBitVec =
      ofBytes 64 [b₀, b₁, b₂, b₃, b₄, b₅, b₆, b₇] := by
  unfold assembleLong
  rw [Int64.toBitVec_or, Int64.toBitVec_or, Int64.toBitVec_or, Int64.toBitVec_or,
    Int64.toBitVec_or, Int64.toBitVec_or, Int64.toBitVec_or, longTop_eq b₀ 7 56 rfl (by decide),
    longField_eq b₁ 6 48 rfl, longField_eq b₂ 5 40 rfl, longField_eq b₃ 4 32 rfl,
    longField_eq b₄ 3 24 rfl, longField_eq b₅ 2 16 rfl, longField_eq b₆ 1 8 rfl,
    longField_eq b₇ 0 0 rfl]
  simp only [BitVec.or_assoc]
  show _ = field 64 b₀ 7 ||| (field 64 b₁ 6 ||| (field 64 b₂ 5 ||| (field 64 b₃ 4 |||
    (field 64 b₄ 3 ||| (field 64 b₅ 2 ||| (field 64 b₆ 1 ||| ofBytes 64 [b₇]))))))
  rw [ofBytes_singleton]

/-- a `short` is put together as an `int` and cut -/
theorem assembleShort_eq (b₀ b₁ : UInt8) :
    (assembleShort b₀ b₁).toBitVec = ofBytes 16 [b₀, b₁] := by
  have htop : (byteToInt b₀ <<< 8).toBitVec = b₀.toBitVec.signExtend 32 <<< (8 * 1) := rfl
  have hlow : (byteToInt b₁ &&& (0xFF : Int32)).toBitVec = field 32 b₁ 0 :=
    (BitVec.shiftLeft_zero _).symm
  show (byteToInt b₀ <<< 8 ||| byteToInt b₁ &&& (0xFF : Int32)).toBitVec.signExtend 16 =
    field 16 b₀ 1 ||| ofBytes 16 [b₁]
  rw [BitVec.signExtend_eq_setWidth_of_le _ (by decide), Int32.toBitVec_or, BitVec.setWidth_or,
    htop, hlow, setWidth_signExtend_shiftLeft b₀ (by decide) (by decide),
    setWidth_field b₁ 0 (by decide), ofBytes_singleton]

theorem getBytesInt_eq (value : Int32) : getBytesInt value = toBytes 4 value.toBitVec := by
  have hlast : value.toInt8.toUInt8 = byteAt value.toBitVec 0 := by
    have h := intByte_eq 0 value 0 rfl
    rwa [Int32.shiftRight_zero] at h
  unfold getBytesInt
  rw [intByte_eq 3 value 24 rfl, intByte_eq 2 value 16 rfl, intByte_eq 1 value 8 rfl, hlast]
  rfl

theorem getBytesLong_eq (value : Int64) : getBytesLong value = toBytes 8 value.toBitVec := by
  unfold getBytesLong
  rw [longByte_eq 7 value 56 rfl, longByte_eq 6 value 48 rfl, longByte_eq 5 value 40 rfl,
    longByte_eq 4 value 32 rfl, longByte_eq 3 value 24 rfl, longByte_eq 2 value 16 rfl,
    longByte_eq 1 value 8 rfl, longByte_eq 0 value 0 rfl]
  rfl

theorem getBytesShort_eq (value : Int16) : getBytesShort value = toBytes 2 value.toBitVec := by
  have hlow : value.toInt8.toUInt8 = byteAt value.toBitVec 0 := by
    refine UInt8.toBitVec_inj.1 ?_
    show value.toBitVec.signExtend 8 = (value.toBitVec.sshiftRight 0).setWidth 8
    rw [BitVec.signExtend_eq_setWidth_of_le _ (by decide), BitVec.sshiftRight_zero]
  have hhigh : (value.toInt32 >>> 8).toInt8.toUInt8 = byteAt value.toBitVec 1 := by
    rw [intByte_eq 1 value.toInt32 8 rfl]
    exact byteAt_signExtend value.toBitVec (by decide) (by decide)
  unfold getBytesShort
  rw [hlow, hhigh]
  rfl

/-! ## the three widths -/

inductive Width where
  | short
  | int
  | long
  deriving DecidableEq

def Width.size : Width → Nat
  | .short => 2
  | .int => 4
  | .long => 8

abbrev Width.Value : Width → Type
  | .short => Int16
  | .int => Int32
  | .long => Int64

namespace ByteHelper

def getBytes : (w : Width) → w.Value → Bytes
  | .short, value => getBytesShort value
  | .int, value => getBytesInt value
  | .long, value => getBytesLong value

def getBytesAt : (w : Width) → w.Value → Bytes → Nat → Option Bytes
  | .short, value, b, off => getBytesShortAt value b off
  | .int, value, b, off => getBytesIntAt value b off
  | .long, value, b, off => getBytesLongAt value b off

def getAt : (w : Width) → Bytes → Nat → Option w.Value
  | .short, b, off => getShort b off
  | .int, b, off => getInt b off
  | .long, b, off => getLong b off

end ByteHelper

def Width.ofBytes : (w : Width) → Bytes → w.Value
  | .short, l => Int16.ofBitVec (BigEndian.ofBytes 16 l)
  | .int, l => Int32.ofBitVec (BigEndian.ofBytes 32 l)
  | .long, l => Int64.ofBitVec (BigEndian.ofBytes 64 l)

theorem length_getBytes (w : Width) (v : w.Value) : (getBytes w v).length = w.size := by
  cases w <;> rfl

theorem ofBytes_getBytes (w : Width) (v : w.Value) : w.ofBytes (getBytes w v) = v := by
  cases w with
  | short =>
    have hback : ofBytes 16 (toBytes 2 (Int16.toBitVec v)) = Int16.toBitVec v :=
      ofBytes_toBytes _ (by decide)
    exact congrArg Int16.ofBitVec ((congrArg (ofBytes 16) (getBytesShort_eq v)).trans hback)
  | int =>
    have hback : ofBytes 32 (toBytes 4 (Int32.toBitVec v)) = Int32.toBitVec v :=
      ofBytes_toBytes _ (by decide)
    exact congrArg Int32.ofBitVec ((congrArg (ofBytes 32) (getBytesInt_eq v)).trans hback)
  | long =>
    have hback : ofBytes 64 (toBytes 8 (Int64.toBitVec v)) = Int64.toBitVec v :=
      ofBytes_toBytes _ (by decide)
    exact congrArg Int64.ofBitVec ((congrArg (ofBytes 64) (getBytesLong_eq v)).trans hback)

theorem getBytes_ofBytes (w : Width) (l : Bytes) (hl : l.length = w.size) :
    getBytes w (w.ofBytes l) = l := by
  cases w with
  | short => exact (getBytesShort_eq _).trans (toBytes_ofBytes hl (by decide))
  | int => exact (getBytesInt_eq _).trans (toBytes_ofBytes hl (by decide))
  | long => exact (getBytesLong_eq _).trans (toBytes_ofBytes hl (by decide))

def Width.codec (w : Width) : Wire.Codec UInt8 w.Value where
  size := w.size
  encode := getBytes w
  decode := w.ofBytes
  length_encode := length_getBytes w
  decode_encode := ofBytes_getBytes w
  encode_decode := getBytes_ofBytes w

/-! ## accesses in place -/

section
variable {b b' : Bytes} {off : Nat}

theorem codec_get (w : Width) (hfit : off + w.size ≤ b.length) :
    w.codec.get b off = some (w.ofBytes (Wire.slice b off w.size)) := if_pos hfit

theorem getAt_eq (w : Width) (hfit : off + w.size ≤ b.length) :
    getAt w b off = w.codec.get b off := by
  rw [codec_get w hfit]
  cases w with
  | short =>
    change off + 2 ≤ b.length at hfit
    show getShort b off = some (Int16.ofBitVec (ofBytes 16 (Wire.slice b off 2)))
    unfold getShort
    rw [Wire.slice_succ 1 (by omega), Wire.slice_succ 0 (by omega)]
    simp (disch := omega) only [List.getElem?_eq_getElem]
    exact congrArg (some ∘ Int16.ofBitVec) (assembleShort_eq _ _)
  | int =>
    change off + 4 ≤ b.length at hfit
    show getInt b off = some (Int32.ofBitVec (ofBytes 32 (Wire.slice b off 4)))
    unfold getInt
    rw [Wire.slice_succ 3 (by omega), Wire.slice_succ 2 (by omega), Wire.slice_succ 1 (by omega),
      Wire.slice_succ 0 (by omega)]
    simp (disch := omega) only [List.getElem?_eq_getElem]
    exact congrArg (some ∘ Int32.ofBitVec) (assembleInt_eq _ _ _ _)
  | long =>
    change off + 8 ≤ b.length at hfit
    show getLong b off = some (Int64.ofBitVec (ofBytes 64 (Wire.slice b off 8)))
    unfold getLong
    rw [Wire.slice_succ 7 (by omega), Wire.slice_succ 6 (by omega), Wire.slice_succ 5 (by omega),
      Wire.slice_succ 4 (by omega), Wire.slice_succ 3 (by omega), Wire.slice_succ 2 (by omega),
      Wire.slice_succ 1 (by omega), Wire.slice_succ 0 (by omega)]
    simp (disch := omega) only [List.getElem?_eq_getElem]
    exact congrArg (some ∘ Int64.ofBitVec) (assembleLong_eq _ _ _ _ _ _ _ _)

theorem getBytesAt_eq (w : Width) (v : w.Value) (hoff : off ≤ b.length) :
    getBytesAt w v b off = w.codec.put b off v := by
  have hput : w.codec.put b off v =
      Wire.writes b (Wire.layout off ((getBytes w v).map fun x => [x])) :=
    (Wire.writes_singles _ hoff).symm
  rw [hput]
  cases w with
  | short =>
    have hlow : (v.toInt32 >>> 0).toInt8 = v.toInt8 := by
      rw [Int32.shiftRight_zero, Int16.toInt8_toInt32]
    show getBytesShortAt v b off = _
    unfold getBytesShortAt
    rw [hlow]
    rfl
  | int =>
    show getBytesIntAt v b off = _
    unfold getBytesIntAt
    rw [Int32.shiftRight_zero]
    rfl
  | long => rfl

/-! ## reading and writing one array -/

/-- `getBytes(value, b, off)`, as one of several calls on the same array -/
structure Store where
  width : Width
  value : width.Value
  off : Nat

def stores (b : Bytes) : List Store → Option Bytes
  | [] => some b
  | s :: ss => (getBytesAt s.width s.value b s.off).bind fun b' => stores b' ss

def Store.write (s : Store) : Nat × Bytes := (s.off, getBytes s.width s.value)

def Store.Apart (s t : Store) : Prop :=
  s.off + s.width.size ≤ t.off ∨ t.off + t.width.size ≤ s.off

theorem write_apart {s t : Store} (h : s.Apart t) : Wire.Apart s.write t.write := by
  unfold Wire.Apart Store.write
  rw [length_getBytes, length_getBytes]
  exact h

theorem stores_eq {ss : List Store} (hfit : ∀ s ∈ ss, s.off + s.width.size ≤ b.length) :
    stores b ss = Wire.writes b (ss.map Store.write) := by
  induction ss generalizing b with
  | nil => rfl
  | cons s ss ih =>
    have hs : s.off + s.width.size ≤ b.length := hfit s List.mem_cons_self
    unfold stores
    rw [getBytesAt_eq s.width s.value (by omega), List.map_cons, Wire.writes_cons]
    refine Option.bind_congr fun c hc => ih fun t ht => ?_
    rw [Wire.length_write hc]
    exact hfit t (List.mem_cons_of_mem s ht)

theorem getAt_of_slice (w : Width) {v : w.Value} (hfit : off + w.size ≤ b.length)
    (h : Wire.slice b off w.size = getBytes w v) : getAt w b off = some v :=
  (getAt_eq w hfit).trans (w.codec.get_of_slice hfit h)

theorem store_get (w : Width) (v : w.Value) (hfit : off + w.size ≤ b.length) :
    ∃ b', getBytesAt w v b off = some b' ∧ b'.length = b.length ∧ getAt w b' off = some v ∧
      (∀ j, j < off ∨ off + w.size ≤ j → b'[j]? = b[j]?) ∧
      Wire.slice b' off w.size = getBytes w v := by
  obtain ⟨b', hb', hlen, hslice, hframe⟩ := w.codec.put_fits v hfit
  have hfit' : off + w.size ≤ b'.length := by rwa [hlen]
  exact ⟨b', (getBytesAt_eq w v (by omega)).trans hb', hlen, getAt_of_slice w hfit' hslice, hframe,
    hslice⟩

theorem get_store (w : Width) (hfit : off + w.size ≤ b.length) :
    ∃ v, getAt w b off = some v ∧ getBytesAt w v b off = some b := by
  refine ⟨_, (getAt_eq w hfit).trans (codec_get w hfit), ?_⟩
  rw [getBytesAt_eq w _ (by omega)]
  exact w.codec.put_get (codec_get w hfit)

theorem getAt_congr (w : Width) (hlen : b'.length = b.length) (hfit : off + w.size ≤ b.length)
    (h : ∀ j, off ≤ j → j < off + w.size → b'[j]? = b[j]?) : getAt w b' off = getAt w b off := by
  have hfit' : off + w.size ≤ b'.length := by rwa [hlen]
  rw [getAt_eq w hfit, getAt_eq w hfit', codec_get w hfit, codec_get w hfit', Wire.slice_congr h]

theorem stores_perm {ss ss' : List Store} (hperm : ss.Perm ss') (hapart : ss.Pairwise Store.Apart)
    (hfit : ∀ s ∈ ss, s.off + s.width.size ≤ b.length) :
    ∃ b', stores b ss = some b' ∧ stores b ss' = some b' ∧
      (∀ s ∈ ss, getAt s.width b' s.off = some s.value) ∧
      ∀ (w : Width) off, off + w.size ≤ b.length →
        (∀ s ∈ ss, s.off + s.width.size ≤ off ∨ off + w.size ≤ s.off) →
        getAt w b' off = getAt w b off := by
  have hpw : (ss.map Store.write).Pairwise Wire.Apart :=
    List.pairwise_map.2 (hapart.imp write_apart)
  have hwfit : ∀ p ∈ ss.map Store.write, p.1 + p.2.length ≤ b.length := fun p hp => by
    obtain ⟨s, hs, rfl⟩ := List.mem_map.1 hp
    have hlen := length_getBytes s.width s.value
    show s.off + (getBytes s.width s.value).length ≤ b.length
    rw [hlen]
    exact hfit s hs
  obtain ⟨b', hb'⟩ := Wire.writes_fits hwfit
  have hfit' : ∀ s ∈ ss', s.off + s.width.size ≤ b.length := fun s hs =>
    hfit s (hperm.mem_iff.2 hs)
  have hblen := Wire.length_writes hb'
  refine ⟨b', (stores_eq hfit).trans hb', ?_, fun s hs => ?_, fun w off hw haway => ?_⟩
  · rw [stores_eq hfit', ← Wire.writes_perm (hperm.map Store.write) hpw, hb']
  · have hslice : Wire.slice b' s.off (getBytes s.width s.value).length =
        getBytes s.width s.value := Wire.slice_writes hpw hb' (List.mem_map_of_mem hs)
    have hsfit : s.off + s.width.size ≤ b'.length := by
      rw [hblen]
      exact hfit s hs
    rw [length_getBytes] at hslice
    exact getAt_of_slice s.width hsfit hslice
  · refine getAt_congr w hblen hw fun j hj hj' => Wire.writes_frame hb' fun p hp => ?_
    obtain ⟨s, hs, rfl⟩ := List.mem_map.1 hp
    have hsaway := haway s hs
    have hlen := length_getBytes s.width s.value
    show j < s.off ∨ s.off + (getBytes s.width s.value).length ≤ j
    omega

/-- **Integers in place**: what is written is read back and nothing else changes, writing back what
was read changes nothing, and stores to ranges that do not meet can be made in any order. -/
theorem inPlace_codec (b : Bytes) :
    (∀ (w : Width) (v : w.Value) off, off + w.size ≤ b.length →
      ∃ b', getBytesAt w v b off = some b' ∧ b'.length = b.length ∧ getAt w b' off = some v ∧
        (∀ j, j < off ∨ off + w.size ≤ j → b'[j]? = b[j]?) ∧
        Wire.slice b' off w.size = getBytes w v) ∧
    (∀ (w : Width) off, off + w.size ≤ b.length →
      ∃ v, getAt w b off = some v ∧ getBytesAt w v b off = some b) ∧
    ∀ ss ss' : List Store, ss.Perm ss' → ss.Pairwise Store.Apart →
      (∀ s ∈ ss, s.off + s.width.size ≤ b.length) →
      ∃ b', stores b ss = some b' ∧ stores b ss' = some b' ∧
        (∀ s ∈ ss, getAt s.width b' s.off = some s.value) ∧
        ∀ (w : Width) off, off + w.size ≤ b.length →
          (∀ s ∈ ss, s.off + s.width.size ≤ off ∨ off + w.size ≤ s.off) →
          getAt w b' off = getAt w b off :=
  ⟨fun w v _ hfit => store_get w v hfit, fun w _ hfit => get_store w hfit,
    fun _ _ hperm hapart hfit => stores_perm hperm hapart hfit⟩

end

/-- a negative `short` and an `int` in an array of eight bytes -/
theorem inPlace_codec_pair :
    ∃ b', stores (List.replicate 8 7) [⟨.short, -2, 1⟩, ⟨.int, 256, 3⟩] = some b' ∧
      stores (List.replicate 8 7) [⟨.int, 256, 3⟩, ⟨.short, -2, 1⟩] = some b' ∧
      getAt .short b' 1 = some (-2) ∧ b' = [7, 255, 254, 0, 0, 1, 0, 7] := by
  obtain ⟨b', h, h', hget, -⟩ := (inPlace_codec (List.replicate 8 7)).2.2
    [⟨.short, -2, 1⟩, ⟨.int, 256, 3⟩] [⟨.int, 256, 3⟩, ⟨.short, -2, 1⟩] (List.Perm.swap _ _ _)
    (by simp [Store.Apart, Width.size]) (by simp [Width.size])
  have hb' : stores (List.replicate 8 7) [⟨.short, -2, 1⟩, ⟨.int, 256, 3⟩] =
      some [7, 255, 254, 0, 0, 1, 0, 7] := by decide
  exact ⟨b', h, h', hget _ List.mem_cons_self, Option.some.inj (h.symm.trans hb')⟩

end BA.Wrapper
