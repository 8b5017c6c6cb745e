import Mathlib.Data.List.Basic
import Mathlib.Tactic.Common

/-!
# Big-endian bytes of a bit vector

Bytes are cut out by an arithmetic shift and put together from sign-extended bytes, as a language
without unsigned bytes does it.

* `byteAt v i`     the byte of weight `8 i`, by an arithmetic shift;
* `field w b i`    a byte at weight `8 i`: sign-extended, masked, shifted;
* `toBytes`, `ofBytes`   the most significant byte first;
* `ofBytes_toBytes`, `toBytes_ofBytes`   they are inverse, when the lengths agree.
-/

namespace BigEndian

variable {w : Nat}

def byteAt (v : BitVec w) (i : Nat) : UInt8 := UInt8.ofBitVec ((v.sshiftRight (8 * i)).setWidth 8)

def field (w : Nat) (b : UInt8) (i : Nat) : BitVec w :=
  (b.toBitVec.signExtend w &&& BitVec.ofNat w 255) <<< (8 * i)

def toBytes : Nat → BitVec w → List UInt8
  | 0, _ => []
  | n + 1, v => byteAt v n :: toBytes n v

def ofBytes (w : Nat) : List UInt8 → BitVec w
  | [] => 0#w
  | b :: bs => field w b bs.length ||| ofBytes w bs

/-! ## bits -/

theorem getLsbD_byteAt (v : BitVec w) {i j : Nat} (hj : j < 8) (hw : 8 * i + j < w) :
    (byteAt v i).toBitVec.getLsbD j = v.getLsbD (8 * i + j) := by
  have hjw : ¬w ≤ j := by omega
  show ((v.sshiftRight (8 * i)).setWidth 8).getLsbD j = _
  rw [BitVec.getLsbD_setWidth, BitVec.getLsbD_sshiftRight, if_pos hw]
  simp [hj, hjw]

/-- the mask clears what the sign extension filled in -/
theorem getLsbD_field (b : UInt8) {i j : Nat} (hj : j < w) :
    (field w b i).getLsbD j = (decide (8 * i ≤ j) && b.toBitVec.getLsbD (j - 8 * i)) := by
  have hmask : ∀ m, (BitVec.ofNat w 255).getLsbD m = (decide (m < w) && decide (m < 8)) := by
    intro m
    rw [BitVec.getLsbD_ofNat]
    exact congrArg _ (Nat.testBit_two_pow_sub_one 8 m)
  unfold field
  rw [BitVec.getLsbD_shiftLeft, BitVec.getLsbD_and, hmask, BitVec.getLsbD_signExtend]
  by_cases hi : 8 * i ≤ j
  · by_cases h8 : j - 8 * i < 8
    · have hjw : j - 8 * i < w := by omega
      simp [hj, hi, h8, hjw]
    · have h0 : b.toBitVec.getLsbD (j - 8 * i) = false :=
        BitVec.getLsbD_of_ge _ _ (Nat.le_of_not_lt h8)
      simp [h8, h0]
  · simp [hi, hj]

/-- without the mask the top byte is the same: its sign is shifted out, or cut off -/
theorem setWidth_signExtend_shiftLeft {u : Nat} (b : UInt8) {i : Nat} (hi : w ≤ 8 * i + 8)
    (hu : w ≤ u) : (b.toBitVec.signExtend u <<< (8 * i)).setWidth w = field w b i := by
  refine BitVec.eq_of_getLsbD_eq fun j hj => ?_
  have hju : j < u := by omega
  rw [getLsbD_field b hj, BitVec.getLsbD_setWidth, BitVec.getLsbD_shiftLeft,
    BitVec.getLsbD_signExtend]
  by_cases hij : 8 * i ≤ j
  · have hlow : j - 8 * i < u := by omega
    have h8 : j - 8 * i < 8 := by omega
    simp [hj, hju, hij, h8, hlow]
  · simp [hij, hj, hju]

theorem signExtend_shiftLeft (b : UInt8) {i : Nat} (hi : w ≤ 8 * i + 8) :
    b.toBitVec.signExtend w <<< (8 * i) = field w b i := by
  rw [← setWidth_signExtend_shiftLeft b hi (Nat.le_refl w), BitVec.setWidth_eq]

theorem setWidth_field {u : Nat} (b : UInt8) (i : Nat) (hu : w ≤ u) :
    (field u b i).setWidth w = field w b i := by
  refine BitVec.eq_of_getLsbD_eq fun j hj => ?_
  rw [BitVec.getLsbD_setWidth, getLsbD_field b (by omega), getLsbD_field b hj]
  simp [hj]

/-- the bytes of a vector are those of its sign extension -/
theorem byteAt_signExtend {u : Nat} (v : BitVec w) {i : Nat} (hi : 8 * i + 8 ≤ w) (hu : w ≤ u) :
    byteAt (v.signExtend u) i = byteAt v i := by
  refine UInt8.toBitVec_inj.1 (BitVec.eq_of_getLsbD_eq fun j hj => ?_)
  have hw : 8 * i + j < w := by omega
  have hju : 8 * i + j < u := by omega
  rw [getLsbD_byteAt _ hj hju, getLsbD_byteAt v hj hw, BitVec.getLsbD_signExtend, if_pos hw]
  simp [hju]

/-! ## the same with the shift given as a vector -/

theorem sshiftRight_eq_byteAt (v : BitVec w) {s : BitVec w} {i : Nat} (hs : s.toNat = 8 * i)
    (hw : 8 ≤ w) : UInt8.ofBitVec ((v.sshiftRight' s).signExtend 8) = byteAt v i := by
  unfold byteAt BitVec.sshiftRight'
  rw [hs, BitVec.signExtend_eq_setWidth_of_le _ hw]

theorem shiftLeft_eq_field (b : UInt8) {s : BitVec w} {i : Nat} (hs : s.toNat = 8 * i) :
    (b.toBitVec.signExtend w &&& BitVec.ofNat w 255) <<< s = field w b i := by
  unfold field
  rw [BitVec.shiftLeft_eq', hs]

theorem shiftLeft_eq_top (b : UInt8) {s : BitVec w} {i : Nat} (hs : s.toNat = 8 * i)
    (hi : w ≤ 8 * i + 8) : b.toBitVec.signExtend w <<< s = field w b i := by
  rw [BitVec.shiftLeft_eq', hs, signExtend_shiftLeft b hi]

/-! ## bits of a whole string -/

@[simp] theorem ofBytes_singleton (b : UInt8) : ofBytes w [b] = field w b 0 := BitVec.or_zero

theorem getLsbD_ofBytes_cons (b : UInt8) (bs : List UInt8) {j : Nat} (hj : j < w) :
    (ofBytes w (b :: bs)).getLsbD j =
      (decide (8 * bs.length ≤ j) && b.toBitVec.getLsbD (j - 8 * bs.length) ||
        (ofBytes w bs).getLsbD j) := by
  show (field w b bs.length ||| ofBytes w bs).getLsbD j = _
  rw [BitVec.getLsbD_or, getLsbD_field b hj]

theorem getLsbD_ofBytes_of_le (bs : List UInt8) {j : Nat} (hj : 8 * bs.length ≤ j) :
    (ofBytes w bs).getLsbD j = false := by
  by_cases hw : j < w
  · induction bs with
    | nil => simp [ofBytes]
    | cons b bs ih =>
      rw [List.length_cons] at hj
      have h8 : 8 ≤ j - 8 * bs.length := by omega
      rw [getLsbD_ofBytes_cons b bs hw, ih (by omega), BitVec.getLsbD_of_ge _ _ h8]
      simp
  · exact BitVec.getLsbD_of_ge _ _ (by omega)

/-! ## round trips -/

@[simp] theorem length_toBytes (n : Nat) (v : BitVec w) : (toBytes n v).length = n := by
  induction n with
  | zero => rfl
  | succ n ih => exact congrArg (· + 1) ih

theorem getLsbD_ofBytes_toBytes {n : Nat} (v : BitVec w) {j : Nat} (hj : j < 8 * n)
    (hw : 8 * n ≤ w) : (ofBytes w (toBytes n v)).getLsbD j = v.getLsbD j := by
  induction n with
  | zero => omega
  | succ n ih =>
    show (ofBytes w (byteAt v n :: toBytes n v)).getLsbD j = _
    rw [getLsbD_ofBytes_cons _ _ (by omega), length_toBytes]
    by_cases hlow : j < 8 * n
    · rw [ih hlow (by omega), decide_eq_false (by omega)]
      simp
    · have hsum : 8 * n + (j - 8 * n) = j := by omega
      rw [getLsbD_ofBytes_of_le _ (by rw [length_toBytes]; omega),
        getLsbD_byteAt v (by omega) (by omega), hsum, decide_eq_true (by omega)]
      simp

/-- reading back what was written -/
theorem ofBytes_toBytes {n : Nat} (v : BitVec w) (hw : 8 * n = w) : ofBytes w (toBytes n v) = v :=
  BitVec.eq_of_getLsbD_eq fun _ hj => getLsbD_ofBytes_toBytes v (by omega) (by omega)

/-- the bytes are those of any other vector with the same low bits -/
theorem toBytes_congr {n : Nat} {u v : BitVec w} (hw : 8 * n ≤ w)
    (h : ∀ j < 8 * n, u.getLsbD j = v.getLsbD j) : toBytes n u = toBytes n v := by
  induction n with
  | zero => rfl
  | succ n ih =>
    have hbyte : byteAt u n = byteAt v n := by
      refine UInt8.toBitVec_inj.1 (BitVec.eq_of_getLsbD_eq fun j hj => ?_)
      rw [getLsbD_byteAt u hj (by omega), getLsbD_byteAt v hj (by omega), h _ (by omega)]
    show byteAt u n :: toBytes n u = _
    rw [hbyte, ih (by omega) fun j hj => h j (by omega)]
    rfl

/-- writing what was read -/
theorem toBytes_ofBytes {n : Nat} {bs : List UInt8} (hn : bs.length = n) (hw : 8 * n ≤ w) :
    toBytes n (ofBytes w bs) = bs := by
  subst hn
  induction bs with
  | nil => rfl
  | cons b bs ih =>
    rw [List.length_cons] at hw
    have hbyte : byteAt (ofBytes w (b :: bs)) bs.length = b := by
      refine UInt8.toBitVec_inj.1 (BitVec.eq_of_getLsbD_eq fun j hj => ?_)
      rw [getLsbD_byteAt _ hj (by omega), getLsbD_ofBytes_cons b bs (by omega),
        getLsbD_ofBytes_of_le bs (by omega), Nat.add_sub_cancel_left,
        decide_eq_true (by omega)]
      simp
    have hrest : toBytes bs.length (ofBytes w (b :: bs)) = toBytes bs.length (ofBytes w bs) :=
      toBytes_congr (by omega) fun j hj => by
        rw [getLsbD_ofBytes_cons b bs (by omega), decide_eq_false (by omega)]
        simp
    show byteAt _ bs.length :: toBytes bs.length (ofBytes w (b :: bs)) = _
    rw [hbyte, hrest, ih (by omega)]

end BigEndian
