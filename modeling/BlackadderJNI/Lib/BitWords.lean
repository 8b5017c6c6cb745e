import Mathlib.Data.List.Basic
import Mathlib.Tactic.Common

/-!
# Bits in words

A list of words of `w` bits as one sequence of bits, the first word's lowest bit first.

* `bit d i`              bit `i` of the words `d`;
* `bit_append`, `bit_mapFirst`, `bit_zipFirst`, `bit_set`   the bits after an operation on the
                         words;
* `eq_of_bits`, `take_eq_iff`   words are equal when their bits are;
* `Bits`                 what such words are for: a size, and a set of numbers below it.
-/

namespace BitWords
variable {w : Nat}

def bit (d : List (BitVec w)) (i : Nat) : Bool := (d[i / w]?.getD 0#w).getLsbD (i % w)

theorem bit_eq (d : List (BitVec w)) {i : Nat} (h : i / w < d.length) :
    bit d i = d[i / w].getLsbD (i % w) := by
  rw [bit, List.getElem?_eq_getElem h, Option.getD_some]

theorem bit_zeros (n i : Nat) : bit (List.replicate n (0#w)) i = false := by
  unfold bit
  rw [List.getElem?_replicate]
  split_ifs <;> simp

theorem bit_take (d : List (BitVec w)) {n i : Nat} (h : i / w < n) :
    bit (d.take n) i = bit d i := by
  rw [bit, List.getElem?_take, if_pos h]
  rfl

theorem bit_set {d : List (BitVec w)} {k : Nat} (hk : k < d.length) (x : BitVec w) (i : Nat) :
    bit (d.set k x) i = if i / w = k then x.getLsbD (i % w) else bit d i := by
  unfold bit
  rw [List.getElem?_set]
  by_cases h : k = i / w
  · subst h
    simp [hk]
  · have h' : ¬ i / w = k := fun e => h e.symm
    simp [h, h']

/-- the first `n` words, each changed by `f` -/
def mapFirst (n : Nat) (f : BitVec w → BitVec w) (d : List (BitVec w)) : List (BitVec w) :=
  (d.take n).map f ++ d.drop n

/-- the first `n` words, each combined by `f` with the word of `e` -/
def zipFirst (n : Nat) (f : BitVec w → BitVec w → BitVec w) (d e : List (BitVec w)) :
    List (BitVec w) :=
  List.zipWith f (d.take n) (e.take n) ++ d.drop n

theorem length_mapFirst (n : Nat) (f : BitVec w → BitVec w) (d : List (BitVec w)) :
    (mapFirst n f d).length = d.length := by
  simp [mapFirst]
  omega

theorem length_zipFirst {n : Nat} (f : BitVec w → BitVec w → BitVec w) {d e : List (BitVec w)}
    (he : n ≤ e.length) : (zipFirst n f d e).length = d.length := by
  simp [zipFirst]
  omega

section
variable (hw : 0 < w)
include hw

theorem div_lt {i n : Nat} : i / w < n ↔ i < w * n := by
  rw [Nat.div_lt_iff_lt_mul hw, Nat.mul_comm]

theorem bit_append (d e : List (BitVec w)) (i : Nat) :
    bit (d ++ e) i = if i < w * d.length then bit d i else bit e (i - w * d.length) := by
  by_cases h : i < w * d.length
  · rw [if_pos h, bit, List.getElem?_append_left ((div_lt hw).mpr h)]
    rfl
  · have hle : w * d.length ≤ i := Nat.not_lt.mp h
    have hdiv : d.length ≤ i / w := Nat.not_lt.mp fun hlt => h ((div_lt hw).mp hlt)
    obtain ⟨j, rfl⟩ := Nat.exists_eq_add_of_le hle
    rw [if_neg h, bit, bit, List.getElem?_append_right hdiv, Nat.add_sub_cancel_left,
      Nat.mul_add_div hw, Nat.add_sub_cancel_left, Nat.mul_add_mod]

theorem bit_drop (d : List (BitVec w)) (n i : Nat) : bit (d.drop n) i = bit d (w * n + i) := by
  rw [bit, List.getElem?_drop, bit, Nat.mul_add_div hw, Nat.mul_add_mod]

/-- the first `n` words replaced -/
theorem bit_replaced {d e : List (BitVec w)} {n : Nat} (he : e.length = n) (i : Nat) :
    bit (e ++ d.drop n) i = if i < w * n then bit e i else bit d i := by
  rw [bit_append hw, he]
  split_ifs with h
  · rfl
  · rw [bit_drop hw, Nat.add_sub_cancel' (Nat.not_lt.mp h)]

theorem bit_mapFirst {n : Nat} {f : BitVec w → BitVec w} {g : Bool → Bool}
    (hf : ∀ x j, j < w → (f x).getLsbD j = g (x.getLsbD j)) {d : List (BitVec w)}
    (hd : n ≤ d.length) (i : Nat) :
    bit (mapFirst n f d) i = if i < w * n then g (bit d i) else bit d i := by
  have hlen : ((d.take n).map f).length = n := by rw [List.length_map, List.length_take_of_le hd]
  rw [mapFirst, bit_replaced hw hlen]
  split_ifs with hn
  · have hdiv := (div_lt hw).mpr hn
    have hdd : i / w < d.length := Nat.lt_of_lt_of_le hdiv hd
    rw [bit_eq d hdd, ← hf _ _ (Nat.mod_lt i hw), bit, List.getElem?_map, List.getElem?_take,
      if_pos hdiv, List.getElem?_eq_getElem hdd]
    rfl
  · rfl

theorem bit_zipFirst {n : Nat} {f : BitVec w → BitVec w → BitVec w} {g : Bool → Bool → Bool}
    (hf : ∀ x y j, j < w → (f x y).getLsbD j = g (x.getLsbD j) (y.getLsbD j))
    {d e : List (BitVec w)} (hd : n ≤ d.length) (he : n ≤ e.length) (i : Nat) :
    bit (zipFirst n f d e) i = if i < w * n then g (bit d i) (bit e i) else bit d i := by
  have hlen : (List.zipWith f (d.take n) (e.take n)).length = n := by
    rw [List.length_zipWith, List.length_take_of_le hd, List.length_take_of_le he, Nat.min_self]
  rw [zipFirst, bit_replaced hw hlen]
  split_ifs with hn
  · have hdiv := (div_lt hw).mpr hn
    have hdd : i / w < d.length := Nat.lt_of_lt_of_le hdiv hd
    have hee : i / w < e.length := Nat.lt_of_lt_of_le hdiv he
    rw [bit_eq d hdd, bit_eq e hee, ← hf _ _ _ (Nat.mod_lt i hw), bit, List.getElem?_zipWith,
      List.getElem?_take, List.getElem?_take, if_pos hdiv, if_pos hdiv,
      List.getElem?_eq_getElem hdd, List.getElem?_eq_getElem hee]
    rfl
  · rfl

theorem eq_of_bits {d e : List (BitVec w)} (hlen : d.length = e.length)
    (h : ∀ i < w * d.length, bit d i = bit e i) : d = e := by
  refine List.ext_getElem hlen fun k hk hk' => BitVec.eq_of_getLsbD_eq fun j hj => ?_
  have hdiv : (w * k + j) / w = k := by rw [Nat.mul_add_div hw, Nat.div_eq_of_lt hj, Nat.add_zero]
  have hmod : (w * k + j) % w = j := by rw [Nat.mul_add_mod, Nat.mod_eq_of_lt hj]
  have hlt : w * k + j < w * d.length := (div_lt hw).mp (hdiv.symm ▸ hk)
  have hb := h _ hlt
  unfold bit at hb
  rw [hdiv, hmod, List.getElem?_eq_getElem hk, List.getElem?_eq_getElem hk'] at hb
  exact hb

/-- equal first words, by their bits -/
theorem take_eq_iff {d e : List (BitVec w)} {n : Nat} (hd : n ≤ d.length) (he : n ≤ e.length) :
    d.take n = e.take n ↔ ∀ i < w * n, bit d i = bit e i := by
  constructor
  · intro h i hi
    have hdiv := (div_lt hw).mpr hi
    rw [← bit_take d hdiv, ← bit_take e hdiv, h]
  · intro h
    have hlen : (d.take n).length = n := List.length_take_of_le hd
    refine eq_of_bits hw (hlen.trans (List.length_take_of_le he).symm) fun i hi => ?_
    rw [hlen] at hi
    have hdiv := (div_lt hw).mpr hi
    rw [bit_take d hdiv, bit_take e hdiv, h i hi]

end

end BitWords

/-! ## sets of numbers below a size -/

/-- a size, and a set of numbers below it -/
structure Bits where
  size : Nat
  mem : Nat → Bool
  lt_size : ∀ i, mem i = true → i < size

namespace Bits

theorem ext_iff' {a b : Bits} : a = b ↔ a.size = b.size ∧ ∀ i, a.mem i = b.mem i := by
  constructor
  · rintro rfl
    exact ⟨rfl, fun _ => rfl⟩
  · rintro ⟨hs, hm⟩
    obtain ⟨n, p, _⟩ := a
    obtain ⟨m, q, _⟩ := b
    obtain rfl : n = m := hs
    obtain rfl : p = q := funext hm
    rfl

theorem mem_of_le (b : Bits) {i : Nat} (h : b.size ≤ i) : b.mem i = false := by
  by_contra hne
  have := b.lt_size i (by simpa using hne)
  omega

def tabulate (n : Nat) (p : Nat → Bool) : Bits where
  size := n
  mem i := decide (i < n) && p i
  lt_size i h := by simpa using (Bool.and_eq_true_iff.mp h).1

@[simp] theorem size_tabulate (n : Nat) (p : Nat → Bool) : (tabulate n p).size = n := rfl

@[simp] theorem mem_tabulate (n : Nat) (p : Nat → Bool) (i : Nat) :
    (tabulate n p).mem i = (decide (i < n) && p i) := rfl

def full (n : Nat) (value : Bool) : Bits := tabulate n fun _ => value
def resize (b : Bits) (n : Nat) : Bits := tabulate n b.mem
def compl (b : Bits) : Bits := tabulate b.size fun i => !b.mem i
def inter (a b : Bits) : Bits := tabulate a.size fun i => a.mem i && b.mem i
def union (a b : Bits) : Bits := tabulate (max a.size b.size) fun i => a.mem i || b.mem i
def symmDiff (a b : Bits) : Bits := tabulate a.size fun i => a.mem i ^^ b.mem i
def sdiff (a b : Bits) : Bits := tabulate a.size fun i => a.mem i && !b.mem i
def update (b : Bits) (p : Nat) (f : Bool → Bool) : Bits :=
  tabulate b.size fun i => if i = p then f (b.mem i) else b.mem i

/-- the union with `b` moved up by `k` -/
def shiftUnion (a b : Bits) (k : Nat) : Bits :=
  tabulate a.size fun i => a.mem i || (decide (k ≤ i) && b.mem (i - k))

/-- no member from `lo` on below `hi` -/
def Gap (b : Bits) (lo hi : Nat) : Prop := ∀ i < hi, lo ≤ i → b.mem i = false

instance (b : Bits) (lo hi : Nat) : Decidable (b.Gap lo hi) :=
  inferInstanceAs (Decidable (∀ i < hi, lo ≤ i → b.mem i = false))

theorem Gap.outside {b : Bits} {lo hi : Nat} (h : b.Gap lo hi) (i : Nat) (hi' : b.mem i = true) :
    i < lo ∨ hi ≤ i := by
  by_contra hno
  have hb := h i (by omega) (by omega)
  rw [hi'] at hb
  cases hb

end Bits
