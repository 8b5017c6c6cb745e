import BlackadderJNI.Native.Bitvector
import Mathlib.Order.Nat

/-!
# `Bitvector` as a set of numbers

* `words n`, `span n`   the words that the loops go over for a vector of size `n`, and those that an
                        object of that size has in any case;
* `Represents v b`      the object `v` holds the set `b`; no bit stands above its size;
* `Yields r b`          a call leaves such an object;
* `store`, `least`      what an operation finds of an object, and what every object that holds the
                        set has;
* `resize_yields_iff` and the like   one lemma for each operation, with the exact condition for it
                        to be the operation on sets.
-/

namespace BA
open BitWords

/-! ## numbers of words -/

def words (n : Nat) : Nat := (n + 31) / 32

def span (n : Nat) : Nat := max 2 (words n)

theorem words_le_span (n : Nat) : words n ≤ span n := Nat.le_max_right _ _

theorem two_le_span (n : Nat) : 2 ≤ span n := Nat.le_max_left _ _

/-- the words that `assign` and `clear_last` write to: one for a vector of size 0 -/
def reach (n : Nat) : Nat := max 1 (words n)

theorem le_words (n : Nat) : n ≤ 32 * words n := by
  unfold words
  omega

theorem reach_le_span (n : Nat) : reach n ≤ span n := by
  unfold reach span
  omega

namespace Bitvector

/-! ## what an object stands for -/

structure Represents (v : Bitvector) (b : Bits) : Prop where
  max : v.max + 1 = b.size
  room : span b.size ≤ v.data.length
  bits : ∀ i < 32 * span b.size, bit v.data i = b.mem i

section
variable {v : Bitvector} {b : Bits}

theorem rounds_maxWord {n : Nat} (h : v.max + 1 = n) : rounds v.maxWord = words n := by
  unfold rounds maxWord words
  split_ifs <;> omega

theorem Represents.rounds (h : Represents v b) : Bitvector.rounds v.maxWord = words b.size :=
  rounds_maxWord h.max

/-- no bit stands above the size, so an object stands for one set -/
theorem Represents.unique {b' : Bits} (h : Represents v b) (h' : Represents v b') : b = b' := by
  have hmax := h.max
  have hmax' := h'.max
  have hsize : b.size = b'.size := by omega
  have hle := le_words b.size
  have hspan := words_le_span b.size
  refine Bits.ext_iff'.mpr ⟨hsize, fun i => ?_⟩
  by_cases hi : i < 32 * span b.size
  · rw [← h.bits i hi, h'.bits i (hsize ▸ hi)]
  · rw [b.mem_of_le (by omega), b'.mem_of_le (by omega)]

/-- an object that keeps its size and its words: what it holds is told by its bits -/
theorem Represents.changed_iff (h : Represents v b) {v' : Bitvector} {c : Bits}
    (hmax : v'.max = v.max) (hlen : v'.data.length = v.data.length) (hc : c.size = b.size) :
    Represents v' c ↔ ∀ i < 32 * span b.size, bit v'.data i = c.mem i := by
  constructor
  · exact fun hr i hi => hr.bits i (hc ▸ hi)
  · exact fun hbits => ⟨by rw [hmax, hc]; exact h.max, by rw [hlen, hc]; exact h.room,
      fun i hi => hbits i (hc ▸ hi)⟩

theorem Represents.words_le (h : Represents v b) : words b.size ≤ v.data.length :=
  (words_le_span _).trans h.room

/-- a call leaves an object that holds the set -/
def Yields (r : Option Bitvector) (b : Bits) : Prop := ∃ v, r = some v ∧ Represents v b

theorem yields_some : Yields (some v) b ↔ Represents v b := by
  constructor
  · rintro ⟨u, hu, hr⟩
    exact Option.some.inj hu ▸ hr
  · exact fun hr => ⟨v, rfl, hr⟩

theorem not_yields_none : ¬ Yields none b := by
  rintro ⟨u, hu, _⟩
  cases hu

theorem Yields.unique {r : Option Bitvector} {b' : Bits} (h : Yields r b) (h' : Yields r b') :
    b = b' := by
  obtain ⟨v, hv, hr⟩ := h
  obtain ⟨v', hv', hr'⟩ := h'
  exact hr.unique (Option.some.inj (hv.symm.trans hv') ▸ hr')

/-- what an operation finds of an object: its words, and the bits in them -/
structure Store where
  words : Nat
  bit : Nat → Bool

/-- at least the words of `s`, and its bits in these -/
def Store.Covers (t s : Store) : Prop := s.words ≤ t.words ∧ ∀ i < 32 * s.words, t.bit i = s.bit i

def store (v : Bitvector) : Store := ⟨v.data.length, bit v.data⟩

/-- what every object that holds the set has -/
def least (b : Bits) : Store := ⟨span b.size, b.mem⟩

theorem Represents.covers (h : Represents v b) : (store v).Covers (least b) := ⟨h.room, h.bits⟩

/-! ## the words of the object -/

theorem length_data_inline (h : v.array = none) : v.data = [v.f0, v.f1] := by
  rw [data, h]
  rfl

theorem data_withData {d : List Word} (h : d.length = v.data.length) : (v.withData d).data = d := by
  unfold withData
  cases ha : v.array with
  | some a => rfl
  | none =>
    rw [length_data_inline ha] at h
    obtain ⟨x, y, rfl⟩ := List.length_eq_two.mp h
    rfl

@[simp] theorem max_withData (v : Bitvector) (d : List Word) : (v.withData d).max = v.max := by
  unfold withData
  split <;> rfl

theorem mapWords_eq (nn : Int) (f : Word → Word) (h : Bitvector.rounds nn ≤ v.data.length) :
    ∃ v', mapWords nn f v = some v' ∧ v'.max = v.max ∧
      v'.data = mapFirst (Bitvector.rounds nn) f v.data :=
  ⟨_, if_pos h, max_withData _ _, data_withData (length_mapFirst _ _ _)⟩

theorem zipWords_eq (nn : Int) (f : Word → Word → Word) {o : Bitvector}
    (h : Bitvector.rounds nn ≤ v.data.length) (ho : Bitvector.rounds nn ≤ o.data.length) :
    ∃ v', zipWords nn f v o = some v' ∧ v'.max = v.max ∧
      v'.data = zipFirst (Bitvector.rounds nn) f v.data o.data :=
  ⟨_, if_pos ⟨h, ho⟩, max_withData _ _, data_withData (length_zipFirst _ ho)⟩

theorem modifyWord_eq {k : Nat} (f : Word → Word) (h : k < v.data.length) :
    ∃ v', modifyWord k f v = some v' ∧ v'.max = v.max ∧ v'.data.length = v.data.length ∧
      ∀ i, bit v'.data i =
        if i / 32 = k then (f v.data[k]).getLsbD (i % 32) else bit v.data i := by
  refine ⟨_, dif_pos h, max_withData _ _, ?_, fun i => ?_⟩
  · rw [data_withData (List.length_set ..), List.length_set]
  · rw [data_withData (List.length_set ..), bit_set h]

/-! ## sizes -/

/-- after `resize` the words hold what they held; nothing is cleared -/
theorem resize_eq (h : Represents v b) (n : Nat) : ∃ v', resize n v = some v' ∧
    v'.max + 1 = n ∧ span n ≤ v'.data.length ∧ ∀ i < 32 * span n, bit v'.data i = b.mem i := by
  have hr := h.rounds
  have hroom := h.room
  unfold resize
  by_cases hbig : (n : Int) - 1 > maxInlineBit
  · rw [if_pos hbig]
    have hn : 64 < n := by unfold maxInlineBit at hbig; omega
    have hwant : ((n : Int) - 1) / 32 + 1 = words n := by unfold words; omega
    have hspan : span n = words n := Nat.max_eq_right (by unfold words; omega)
    have hhave : (if v.maxWord + 1 < maxInlineWord + 1 then maxInlineWord + 1
        else v.maxWord + 1) = (span b.size : Int) := by
      unfold Bitvector.rounds at hr
      unfold span maxInlineWord
      split_ifs <;> omega
    unfold resizeToMax
    simp only [if_true, hhave, hwant, Int.toNat_natCast]
    by_cases hfit : (words n : Int) ≤ span b.size
    · rw [if_pos hfit]
      have hle : span n ≤ span b.size := by omega
      refine ⟨_, rfl, by simp, hle.trans hroom, fun i hi => h.bits i (by omega)⟩
    · rw [if_neg hfit, if_pos hroom]
      have hlen : (v.data.take (span b.size)).length = span b.size := List.length_take_of_le hroom
      refine ⟨_, rfl, by simp, ?_, fun i hi => ?_⟩
      · show span n ≤ (v.data.take _ ++ List.replicate _ _).length
        rw [List.length_append, hlen, List.length_replicate]
        omega
      · show bit (v.data.take _ ++ List.replicate _ _) i = _
        rw [bit_append (by decide), hlen]
        split_ifs with hlt
        · rw [bit_take _ ((div_lt (by decide)).mpr hlt), h.bits i hlt]
        · have hge : b.size ≤ i := by
            have := le_words b.size
            have := words_le_span b.size
            omega
          exact (bit_zeros _ _).trans (b.mem_of_le hge).symm
  · rw [if_neg hbig]
    have hn : n ≤ 64 := by unfold maxInlineBit at hbig; omega
    have hspan : span n = 2 := Nat.max_eq_left (by unfold words; omega)
    have htwo := two_le_span b.size
    exact ⟨_, rfl, by simp, by rw [hspan]; exact htwo.trans hroom, fun i hi => h.bits i (by omega)⟩

/-- **`resize` keeps the set exactly when no member is cut off inside the words that stay.** -/
theorem resize_yields_iff (h : Represents v b) (n : Nat) :
    Yields (resize n v) (b.resize n) ↔ b.Gap n (32 * span n) := by
  obtain ⟨v', hv', hmax, hroom, hbits⟩ := resize_eq h n
  rw [hv', yields_some]
  refine ⟨fun hr i hi hge => ?_, fun hgap => ⟨hmax, hroom, fun i hi => ?_⟩⟩
  · have hb := hr.bits i hi
    have hlt : ¬ i < n := by omega
    rw [hbits i hi] at hb
    simpa [Bits.resize, hlt] using hb
  · have hi' : i < 32 * span n := hi
    rw [hbits i hi']
    show b.mem i = (decide (i < n) && b.mem i)
    cases hm : b.mem i with
    | false => rw [Bool.and_false]
    | true =>
      have hlt : i < n := (hgap.outside i hm).resolve_right (by omega)
      simp [hlt]

/-! ## the last word -/

theorem getLsbD_mask {k : Nat} (hk : k < 32) (j : Nat) :
    ((1#32 <<< k) - 1#32).getLsbD j = decide (j < k) := by
  have hpow : 2 ^ k < 2 ^ 32 := Nat.pow_lt_pow_right (by decide) hk
  have hpos : 0 < 2 ^ k := Nat.two_pow_pos k
  have hone : (1#32 <<< k).toNat = 2 ^ k := by
    rw [BitVec.toNat_shiftLeft, BitVec.toNat_ofNat, Nat.shiftLeft_eq, Nat.one_mod, Nat.one_mul,
      Nat.mod_eq_of_lt hpow]
  have hsub : ((1#32 <<< k) - 1#32).toNat = 2 ^ k - 1 := by
    rw [BitVec.toNat_sub, hone, BitVec.toNat_ofNat]
    omega
  rw [← BitVec.testBit_toNat, hsub, Nat.testBit_two_pow_sub_one]

/-- `clear_last` cuts off what stands above the size in the last word of the vector -/
theorem clearLast_eq {n : Nat} (hmax : v.max + 1 = n) (hroom : reach n ≤ v.data.length) :
    ∃ v', clearLast v = some v' ∧ v'.max = v.max ∧ v'.data.length = v.data.length ∧
      ∀ i, bit v'.data i =
        if i < 32 * reach n then bit v.data i && decide (i < n) else bit v.data i := by
  unfold clearLast
  by_cases h0 : n = 0
  · have hreach : reach n = 1 := by rw [h0]; rfl
    have hpos : 0 < v.data.length := by omega
    obtain ⟨v', hv', hmax', hlen, hbits⟩ := modifyWord_eq (fun _ => 0) hpos
    rw [if_pos (by omega)]
    refine ⟨v', hv', hmax', hlen, fun i => ?_⟩
    rw [hbits, hreach]
    by_cases hi : i / 32 = 0
    · rw [if_pos hi, if_pos (by omega), h0]
      simp
    · rw [if_neg hi, if_neg (by omega)]
  · have hm : v.max.toNat = n - 1 := by omega
    have hreach : reach n = words n := by unfold reach words; omega
    rw [if_neg (by omega), hm]
    dsimp only
    by_cases hfull : (n - 1) % 32 = 31
    · rw [if_neg (by omega)]
      refine ⟨v, rfl, rfl, rfl, fun i => ?_⟩
      split_ifs with hi
      · have hlt : i < n := by unfold words at hreach; omega
        simp [hlt]
      · rfl
    · rw [if_pos hfull]
      have hlast : (n - 1) / 32 < v.data.length := by unfold words at hreach; omega
      obtain ⟨v', hv', hmax', hlen, hbits⟩ := modifyWord_eq
        (· &&& ((1#32 <<< ((n - 1) % 32 + 1)) - 1#32)) hlast
      refine ⟨v', hv', hmax', hlen, fun i => ?_⟩
      rw [hbits]
      by_cases hi : i / 32 = (n - 1) / 32
      · have hin : i < 32 * reach n := by unfold words at hreach; omega
        rw [if_pos hi, if_pos hin, BitVec.getLsbD_and, getLsbD_mask (by omega)]
        have hword : bit v.data i = v.data[(n - 1) / 32].getLsbD (i % 32) := by
          rw [bit_eq _ (hi ▸ hlast)]
          congr 2
        have hcut : i % 32 < (n - 1) % 32 + 1 ↔ i < n := by omega
        rw [hword, decide_eq_decide.mpr hcut]
      · rw [if_neg hi]
        split_ifs with hin
        · have hlt : i < n := by unfold words at hreach; omega
          simp [hlt]
        · rfl

/-! ## the operations on one vector -/

theorem negate_eq (h : Represents v b) :
    ∃ v', negate v = some v' ∧ Represents v' b.compl ∧ v'.data.length = v.data.length := by
  have hw := h.words_le
  have hroom := h.room
  obtain ⟨u, hu, humax, hudata⟩ := mapWords_eq v.maxWord (~~~ ·) (h.rounds ▸ hw)
  rw [h.rounds] at hudata
  have hulen : u.data.length = v.data.length := by rw [hudata, length_mapFirst]
  obtain ⟨v', hv', hmax, hlen, hbits⟩ := clearLast_eq (humax ▸ h.max)
    ((reach_le_span _).trans (hulen ▸ hroom))
  refine ⟨v', by rw [negate, hu]; exact hv', ⟨by rw [hmax, humax]; exact h.max, ?_,
    fun i hi => ?_⟩, hlen.trans hulen⟩
  · show span b.size ≤ _
    omega
  · have hi' : i < 32 * span b.size := hi
    have hnot : ∀ (x : Word) j, j < 32 → (~~~x).getLsbD j = !x.getLsbD j := by
      intro x j hj
      simp [hj]
    rw [hbits, hudata, bit_mapFirst (by decide) hnot hw, h.bits i hi']
    show _ = (decide (i < b.size) && !b.mem i)
    have hle := le_words b.size
    by_cases hlt : i < b.size
    · have hin : i < 32 * reach b.size := by unfold reach; omega
      rw [if_pos hin, if_pos (by omega)]
      simp [hlt]
    · rw [b.mem_of_le (by omega)]
      have hr : reach b.size = 1 ∧ words b.size = 0 ∨ reach b.size = words b.size := by
        unfold reach
        omega
      split_ifs <;> simp [hlt]
      omega

/-- the bits after the loop of `assign`, before the last word is cut off -/
theorem fill_eq (h : Represents v b) (n : Nat) (value : Bool) : ∃ u w,
    resize n v = some u ∧
    mapWords (if (n : Int) > 32 then u.maxWord else 0)
      (fun _ => if value then 0xFFFFFFFF#32 else 0#32) u = some w ∧
    w.max + 1 = n ∧ span n ≤ w.data.length ∧
    ∀ i < 32 * span n, bit w.data i = if i < 32 * reach n then value else b.mem i := by
  obtain ⟨u, hu, humax, huroom, hubits⟩ := resize_eq h n
  have hrounds : Bitvector.rounds (if (n : Int) > 32 then u.maxWord else 0) = reach n := by
    split_ifs with hn
    · rw [rounds_maxWord humax]
      unfold reach words
      omega
    · unfold reach words Bitvector.rounds
      omega
  have hreach := reach_le_span n
  obtain ⟨w, hw, hwmax, hwdata⟩ := mapWords_eq
    (if (n : Int) > 32 then u.maxWord else 0)
    (fun _ => if value then 0xFFFFFFFF#32 else 0#32) (hrounds ▸ hreach.trans huroom)
  have hconst : ∀ (_ : Word) j, j < 32 →
      (if value then 0xFFFFFFFF#32 else 0#32).getLsbD j = value := by
    intro _ j hj
    cases value with
    | false => exact BitVec.getLsbD_zero
    | true => exact (BitVec.getLsbD_allOnes (v := 32) (i := j)).trans (decide_eq_true hj)
  rw [hrounds] at hwdata
  refine ⟨u, w, hu, hw, by rw [hwmax]; exact humax, ?_, fun i hi => ?_⟩
  · rw [hwdata, length_mapFirst]
    exact huroom
  · rw [hwdata, bit_mapFirst (g := fun _ => value) (by decide) hconst (hreach.trans huroom),
      hubits i hi]

/-- `assign` writes to the words up to the new size only; in the others stands what stood there. -/
theorem assign_eq (h : Represents v b) (n : Nat) (value : Bool) : ∃ v',
    assign n value v = some v' ∧ v'.max + 1 = n ∧ span n ≤ v'.data.length ∧
    ∀ i < 32 * span n, bit v'.data i =
      if i < 32 * reach n then decide (i < n) && value else b.mem i := by
  obtain ⟨u, w, hu, hw, hwmax, hwroom, hwbits⟩ := fill_eq h n value
  have hassign : assign n value v = if value then clearLast w else some w := by
    unfold assign
    rw [hu]
    dsimp only [Option.bind_eq_bind, Option.bind_some]
    rw [hw]
    rfl
  rw [hassign]
  cases value with
  | false =>
    refine ⟨w, rfl, hwmax, hwroom, fun i hi => ?_⟩
    rw [hwbits i hi, Bool.and_false]
  | true =>
    obtain ⟨v', hv', hmax, hlen, hbits⟩ := clearLast_eq hwmax ((reach_le_span n).trans hwroom)
    refine ⟨v', hv', by rw [hmax]; exact hwmax, by rw [hlen]; exact hwroom, fun i hi => ?_⟩
    rw [hbits, hwbits i hi]
    split_ifs with hin
    · rw [Bool.true_and, Bool.and_true]
    · rfl

/-- **`assign` sets every bit of the new size exactly when it does not leave the second word as it
was**, which it does for a size of at most 32. -/
theorem assign_yields_iff (h : Represents v b) (n : Nat) (value : Bool) :
    Yields (assign n value v) (Bits.full n value) ↔ (n ≤ 32 → b.Gap 32 64) := by
  obtain ⟨v', hv', hmax, hroom, hbits⟩ := assign_eq h n value
  have hle := le_words n
  rw [hv', yields_some]
  refine ⟨fun hr hn i hi h32 => ?_, fun hgap => ⟨hmax, hroom, fun i hi => ?_⟩⟩
  · have hb := hr.bits i (show i < 32 * span n by have := two_le_span n; omega)
    have hout : ¬ i < 32 * reach n := by unfold reach words; omega
    have hlt : ¬ i < n := by omega
    rw [hbits i (by have := two_le_span n; omega), if_neg hout] at hb
    simpa [Bits.full, hlt] using hb
  · have hi' : i < 32 * span n := hi
    rw [hbits i hi']
    show _ = (decide (i < n) && value)
    split_ifs with hin
    · rfl
    · have hn : n ≤ 32 := by unfold reach span words at *; omega
      have hlt : ¬ i < n := by unfold reach at hin; omega
      have hb : b.mem i = false := hgap hn i (by unfold span words at hi'; omega)
        (by unfold reach at hin; omega)
      simp [hb, hlt]

theorem clear_yields (h : Represents v b) : Yields (clear v) (Bits.full b.size false) := by
  have hw := h.words_le
  obtain ⟨v', hv', hmax, hdata⟩ := mapWords_eq v.maxWord (fun _ => 0) (h.rounds ▸ hw)
  rw [h.rounds] at hdata
  refine ⟨v', hv', by rw [hmax]; exact h.max, ?_, fun i hi => ?_⟩
  · rw [hdata, length_mapFirst]
    exact h.room
  · have hi' : i < 32 * span b.size := hi
    have hzero : ∀ (_ : Word) j, j < 32 → (0 : Word).getLsbD j = false := by simp
    have hle := le_words b.size
    rw [hdata, bit_mapFirst (g := fun _ => false) (by decide) hzero hw, h.bits i hi']
    show _ = (decide (i < b.size) && false)
    rw [Bool.and_false]
    split_ifs with hin
    · rfl
    · exact b.mem_of_le (by omega)

/-- the first two words of an object, or all that its vector has -/
theorem Represents.take (h : Represents v b) {d : List Word} {u : Bitvector}
    (k : Nat) (hmax : u.max = v.max) (hd : u.data = d) (hk : span b.size ≤ k)
    (htake : d.take k = v.data.take k) : Represents u b := by
  have hroom := h.room
  have hlen := congrArg List.length htake
  rw [List.length_take, List.length_take] at hlen
  refine ⟨hmax ▸ h.max, by rw [hd]; omega, fun i hi => ?_⟩
  have hdiv : i / 32 < k := by omega
  rw [hd, ← bit_take d hdiv, htake, bit_take _ hdiv, h.bits i hi]

theorem take_two {l : List Word} (h : 1 < l.length) : [l[0], l[1]] = l.take 2 := by
  obtain _ | ⟨x, _ | ⟨y, l⟩⟩ := l <;> simp at h ⊢

/-- a copy has no more words than its size needs -/
theorem copy_eq (h : Represents v b) :
    ∃ v', copy v = some v' ∧ Represents v' b ∧ v'.data.length = span b.size := by
  have hroom := h.room
  have htwo := two_le_span b.size
  have h0 : 0 < v.data.length := by omega
  have h1 : 1 < v.data.length := by omega
  have hcopy : copy v = if v.max > maxInlineBit then
      finishCopyConstructor v ⟨v.max, v.data[0], v.data[1], none⟩
      else some ⟨v.max, v.data[0], v.data[1], none⟩ := by
    unfold copy
    rw [List.getElem?_eq_getElem h0, List.getElem?_eq_getElem h1]
    rfl
  have hmax := h.max
  rw [hcopy]
  by_cases hbig : v.max > maxInlineBit
  · have hspan : span b.size = words b.size := by unfold maxInlineBit span words at *; omega
    have hr : Bitvector.rounds (Bitvector.maxWord ⟨v.max, v.data[0], v.data[1], none⟩) =
        words b.size := h.rounds
    rw [if_pos hbig]
    unfold finishCopyConstructor
    rw [hr, if_pos h.words_le]
    refine ⟨_, rfl, h.take (words b.size) rfl rfl hspan.le ?_, ?_⟩
    · show (v.data.take (words b.size)).take (words b.size) = _
      rw [List.take_take, Nat.min_self]
    · exact (List.length_take_of_le h.words_le).trans hspan.symm
  · have hspan : span b.size = 2 := by unfold maxInlineBit span words at *; omega
    rw [if_neg hbig]
    refine ⟨_, rfl, h.take 2 rfl rfl hspan.le ?_, hspan.symm⟩
    show [v.data[0], v.data[1]].take 2 = _
    rw [take_two h1, List.take_take, Nat.min_self]

theorem assignFrom_yields {o : Bitvector} {b' : Bits} (h : Represents v b)
    (ho : Represents o b') : Yields (assignFrom o v) b' := by
  have htwo : 2 ≤ o.data.length := (two_le_span _).trans ho.room
  have htwo' : 2 ≤ v.data.length := (two_le_span _).trans h.room
  have hr := ho.rounds
  unfold assignFrom
  by_cases hsmall : o.maxWord ≤ maxInlineWord
  · have hspan : span b'.size = 2 := by
      unfold Bitvector.rounds maxInlineWord at *
      unfold span
      omega
    have hlen : (o.data.take 2 ++ v.data.drop 2).length = v.data.length := by
      rw [List.length_append, List.length_take_of_le htwo, List.length_drop]
      omega
    rw [if_pos hsmall, if_pos ⟨htwo, htwo'⟩]
    refine ⟨_, rfl, ho.take 2 rfl (data_withData hlen) hspan.le ?_⟩
    rw [List.take_append_of_le_length (by rw [List.length_take_of_le htwo]), List.take_take,
      Nat.min_self]
  · have hspan : span b'.size = words b'.size := by
      unfold Bitvector.rounds maxInlineWord at *
      unfold span
      omega
    rw [if_neg hsmall]
    dsimp only
    rw [hr, if_pos ho.words_le]
    refine ⟨_, rfl, ho.take (words b'.size) rfl rfl hspan.le ?_⟩
    show (o.data.take (words b'.size)).take (words b'.size) = _
    rw [List.take_take, Nat.min_self]

@[simp] theorem resize_self (b : Bits) : b.resize b.size = b := by
  refine Bits.ext_iff'.mpr ⟨rfl, fun j => ?_⟩
  show (decide (j < b.size) && b.mem j) = b.mem j
  cases hm : b.mem j with
  | false => rw [Bool.and_false]
  | true => simp [b.lt_size j hm]

theorem growTo_yields (h : Represents v b) {m : Int} {n : Nat} (hm : m + 1 = n) :
    Yields (growTo m v) (b.resize (Nat.max b.size n)) := by
  have hmax := h.max
  unfold growTo
  by_cases hlong : m > v.max
  · have hn : Nat.max b.size n = n := Nat.max_eq_right (by omega)
    have hle : b.size ≤ n := hn ▸ Nat.le_max_left b.size n
    rw [if_pos hlong, hm, hn]
    exact (resize_yields_iff h n).mpr fun i _ hi => b.mem_of_le (hle.trans hi)
  · have hn : Nat.max b.size n = b.size := Nat.max_eq_left (by omega)
    rw [if_neg hlong, hn, resize_self]
    exact ⟨v, rfl, h⟩

/-! ## the operators -/

/-- The loop of the operators.  The other object has the words that it goes over, be it shorter
within the two that every object has; and the bits in them make up the set. -/
theorem zip_yields_iff {o : Bitvector} {c : Bits} (h : Represents v b) (hc : c.size = b.size)
    {f : Word → Word → Word} {g : Bool → Bool → Bool}
    (hf : ∀ x y j, j < 32 → (f x y).getLsbD j = g (x.getLsbD j) (y.getLsbD j)) :
    Yields (zipWords v.maxWord f v o) c ↔ words b.size ≤ o.data.length ∧
      ∀ i < 32 * words b.size, g (b.mem i) (bit o.data i) = c.mem i := by
  have hw := h.words_le
  have hle := le_words b.size
  have hspan := words_le_span b.size
  by_cases hwo : words b.size ≤ o.data.length
  · obtain ⟨v', hv', hmax, hdata⟩ := zipWords_eq v.maxWord f (h.rounds ▸ hw) (h.rounds ▸ hwo)
    rw [h.rounds] at hdata
    have hbits : ∀ i < 32 * span b.size, bit v'.data i =
        if i < 32 * words b.size then g (b.mem i) (bit o.data i) else b.mem i := by
      intro i hi
      rw [hdata, bit_zipFirst (by decide) hf hw hwo, h.bits i hi]
    rw [hv', yields_some, and_iff_right hwo,
      h.changed_iff hmax (by rw [hdata, length_zipFirst _ hwo]) hc]
    constructor
    · intro hall i hi
      rw [← hall i (by omega), hbits i (by omega), if_pos hi]
    · intro hall i hi
      rw [hbits i hi]
      split_ifs with hin
      · exact hall i hin
      · rw [b.mem_of_le (by omega), c.mem_of_le (by omega)]
  · rw [show zipWords v.maxWord f v o = none from if_neg fun hand => hwo (h.rounds ▸ hand.2)]
    exact iff_of_false not_yields_none fun hand => hwo hand.1

theorem andAssign_yields_iff {o : Bitvector} (h : Represents v b) (b' : Bits) :
    Yields (andAssign o v) (b.inter b') ↔ words b.size ≤ o.data.length ∧
      ∀ i < b.size, b.mem i = true → bit o.data i = b'.mem i := by
  have hle := le_words b.size
  have hmem : ∀ i, (b.inter b').mem i = (decide (i < b.size) && (b.mem i && b'.mem i)) :=
    fun _ => rfl
  refine (zip_yields_iff (c := b.inter b') h rfl (g := and) fun x y j _ =>
    BitVec.getLsbD_and).trans (and_congr_right fun _ => ?_)
  constructor
  · intro hall i hi hb
    have hbit := hall i (by omega)
    rw [hmem, hb, decide_eq_true hi] at hbit
    simpa using hbit
  · intro hall i _
    rw [hmem]
    cases hb : b.mem i with
    | false => simp
    | true =>
      have hi := b.lt_size i hb
      simp [hi, hall i hi hb]

/-- `operator^=` does not cut off what the other object has above the size -/
theorem xorAssign_yields_iff {o : Bitvector} (h : Represents v b) (b' : Bits) :
    Yields (xorAssign o v) (b.symmDiff b') ↔ words b.size ≤ o.data.length ∧
      ∀ i < 32 * words b.size, bit o.data i = (decide (i < b.size) && b'.mem i) := by
  have hmem : ∀ i, (b.symmDiff b').mem i = (decide (i < b.size) && (b.mem i ^^ b'.mem i)) :=
    fun _ => rfl
  refine (zip_yields_iff (c := b.symmDiff b') h rfl (g := xor) fun x y j _ =>
    BitVec.getLsbD_xor).trans (and_congr_right fun _ => forall₂_congr fun i _ => ?_)
  rw [hmem]
  by_cases hi : i < b.size
  · simp [hi]
  · simp [hi, b.mem_of_le (not_lt.mp hi)]

theorem orAssign_yields_iff {o : Bitvector} {b' : Bits} (h : Represents v b)
    (ho : o.max + 1 = b'.size) : Yields (orAssign o v) (b.union b') ↔
      words (Nat.max b.size b'.size) ≤ o.data.length ∧
      ∀ i < 32 * words (Nat.max b.size b'.size), b.mem i = false → bit o.data i = b'.mem i := by
  obtain ⟨u, hu, hru⟩ := growTo_yields h ho
  have hmem : ∀ i, (b.union b').mem i =
    (decide (i < Nat.max b.size b'.size) && (b.mem i || b'.mem i)) := fun _ => rfl
  have hor : orAssign o v = zipWords u.maxWord (· ||| ·) u o := by
    rw [orAssign, hu]
    rfl
  rw [hor]
  refine (zip_yields_iff hru (c := b.union b') rfl (g := or) fun x y j _ =>
    BitVec.getLsbD_or).trans (and_congr_right fun _ => forall₂_congr fun i _ => ?_)
  show ((decide (i < Nat.max b.size b'.size) && b.mem i) || bit o.data i) = _ ↔ _
  rw [hmem]
  by_cases hi : i < Nat.max b.size b'.size
  · cases b.mem i <;> simp [hi]
  · have hb := b.mem_of_le ((Nat.le_max_left _ _).trans (not_lt.mp hi))
    have hb' := b'.mem_of_le ((Nat.le_max_right _ _).trans (not_lt.mp hi))
    simp [hi, hb, hb']

theorem compl_eq (h : Represents v b) :
    ∃ v', compl v = some v' ∧ Represents v' b.compl ∧ v'.data.length = span b.size := by
  obtain ⟨m, hm, hrm, hlen⟩ := copy_eq h
  obtain ⟨v', hv', hr, hlen'⟩ := negate_eq hrm
  refine ⟨v', ?_, hr, hlen'.trans hlen⟩
  rw [compl, hm]
  exact hv'

theorem inter_compl_eq_sdiff {b b' : Bits} :
    b.inter b'.compl = b.sdiff b' ↔ b.Gap b'.size b.size := by
  rw [Bits.ext_iff']
  constructor
  · rintro ⟨_, hmem⟩ i hi hge
    have hb : (decide (i < b.size) && (b.mem i && (decide (i < b'.size) && !b'.mem i))) =
        (decide (i < b.size) && (b.mem i && !b'.mem i)) := hmem i
    have hlt : ¬ i < b'.size := by omega
    simpa [hi, hlt, b'.mem_of_le hge] using hb
  · refine fun hgap => ⟨rfl, fun i => ?_⟩
    show (decide (i < b.size) && (b.mem i && (decide (i < b'.size) && !b'.mem i))) =
      (decide (i < b.size) && (b.mem i && !b'.mem i))
    cases hb : b.mem i with
    | false => rw [Bool.false_and, Bool.false_and]
    | true =>
      have hlt : i < b'.size :=
        (hgap.outside i hb).resolve_right (Nat.not_le.mpr (b.lt_size i hb))
      simp [hlt]

/-- `operator-=` keeps what the complement of the other object has: nothing above the size of that
object, which has no more words here than its size needs -/
theorem subAssign_yields_iff {o : Bitvector} {b' : Bits} (h : Represents v b)
    (ho : Represents o b') : Yields (subAssign o v) (b.sdiff b') ↔
      words b.size ≤ span b'.size ∧ b.Gap b'.size b.size := by
  obtain ⟨m, hm, hrm, hlen⟩ := compl_eq ho
  have hsub : subAssign o v = andAssign m v := by
    rw [subAssign, hm]
    rfl
  have hinter : Yields (andAssign m v) (b.inter b'.compl) ↔ words b.size ≤ span b'.size := by
    refine (andAssign_yields_iff h b'.compl).trans ?_
    rw [hlen, and_iff_left_iff_imp]
    intro hwords i hi _
    have hle := le_words b.size
    exact hrm.bits i (show i < 32 * span b'.size by omega)
  rw [hsub, ← hinter]
  constructor
  · intro hy
    have hwords : Yields (andAssign m v) (b.inter b'.compl) := by
      rw [hinter, ← hlen]
      obtain ⟨v', hv', _⟩ := hy
      by_contra hno
      rw [show andAssign m v = none from if_neg fun hand => hno (h.rounds ▸ hand.2)] at hv'
      cases hv'
    exact ⟨hwords, inter_compl_eq_sdiff.mp (hwords.unique hy)⟩
  · rintro ⟨hwords, hgap⟩
    exact inter_compl_eq_sdiff.mpr hgap ▸ hwords

/-! ## single bits -/

/-- what an assignment to a bit makes of it -/
def Bit.onBool (x old : Bool) : Bit → Bool
  | .assign => x
  | .and => old && x
  | .or => old || x
  | .xor => old ^^ x
  | .sub => old && !x

theorem getLsbD_one_shiftLeft {k j : Nat} (hj : j < 32) :
    (1#32 <<< k).getLsbD j = decide (j = k) := by
  rw [BitVec.getLsbD_shiftLeft, BitVec.getLsbD_one]
  by_cases hjk : j = k
  · simp [hjk]
    omega
  · simp [hjk]
    omega

theorem Bit.getLsbD_apply (op : Bit) (k : Nat) (x : Bool) (p : Word) {j : Nat} (hj : j < 32) :
    (op.apply (1#32 <<< k) x p).getLsbD j =
      if j = k then op.onBool x (p.getLsbD j) else p.getLsbD j := by
  have hmask := getLsbD_one_shiftLeft (k := k) hj
  have hlt := decide_eq_true hj
  generalize 1#32 <<< k = mask at hmask ⊢
  by_cases hjk : j = k
  · rw [decide_eq_true hjk] at hmask
    rw [if_pos hjk]
    cases op <;> cases x <;> simp only [apply, onBool, Bool.false_eq_true, Bool.not_true,
      Bool.not_false, ↓reduceIte, BitVec.getLsbD_or, BitVec.getLsbD_and, BitVec.getLsbD_xor,
      BitVec.getLsbD_not, hmask, hlt] <;> simp
  · rw [decide_eq_false hjk] at hmask
    rw [if_neg hjk]
    cases op <;> cases x <;> simp only [apply, Bool.false_eq_true, Bool.not_true,
      Bool.not_false, ↓reduceIte, BitVec.getLsbD_or, BitVec.getLsbD_and, BitVec.getLsbD_xor,
      BitVec.getLsbD_not, hmask, hlt] <;> simp

theorem and_one_shiftLeft (w : Word) {k : Nat} (hk : k < 32) :
    (w &&& (1#32 <<< k) != 0) = w.getLsbD k := by
  cases hw : w.getLsbD k with
  | true =>
    rw [bne_iff_ne]
    intro hz
    have hb := congrArg (·.getLsbD k) hz
    simp [BitVec.getLsbD_and, hw, getLsbD_one_shiftLeft hk] at hb
  | false =>
    have hz : w &&& (1#32 <<< k) = 0 := by
      refine BitVec.eq_of_getLsbD_eq fun j hj => ?_
      rw [BitVec.getLsbD_and, getLsbD_one_shiftLeft hj]
      by_cases hjk : j = k
      · simp [hjk, hw]
      · simp [hjk]
    simp [hz]

theorem get_eq {i : Nat} (h : i / 32 < v.data.length) : get v i = some (bit v.data i) := by
  unfold get
  rw [List.getElem?_eq_getElem h, Option.map_some, and_one_shiftLeft _ (Nat.mod_lt _ (by decide)),
    bit_eq _ h]

theorem get_represents (h : Represents v b) {i : Nat} (hi : i < b.size) :
    get v i = some (b.mem i) := by
  have hroom := h.room
  have hle := le_words b.size
  have hspan := words_le_span b.size
  rw [get_eq (by omega), h.bits i (by omega)]

theorem modifyBit_eq (op : Bit) {i : Nat} (x : Bool) (h : i / 32 < v.data.length) :
    ∃ v', modifyBit op i x v = some v' ∧ v'.max = v.max ∧ v'.data.length = v.data.length ∧
      ∀ j, bit v'.data j = if j = i then op.onBool x (bit v.data j) else bit v.data j := by
  obtain ⟨v', hv', hmax, hlen, hbits⟩ := modifyWord_eq
    (fun p => op.apply (1#32 <<< (i % 32)) x p) h
  refine ⟨v', hv', hmax, hlen, fun j => ?_⟩
  rw [hbits]
  by_cases hword : j / 32 = i / 32
  · have hiff : j % 32 = i % 32 ↔ j = i := by omega
    have hold : v.data[i / 32].getLsbD (j % 32) = bit v.data j := by
      rw [bit_eq _ (hword ▸ h)]
      congr 2
      exact hword.symm
    rw [if_pos hword, Bit.getLsbD_apply _ _ _ _ (Nat.mod_lt _ (by decide)), hold]
    simp only [hiff]
  · have hne : j ≠ i := fun e => hword (by rw [e])
    rw [if_neg hword, if_neg hne]

/-- an assignment above the size does nothing that a set would show, unless it sets a bit -/
theorem modifyBit_yields_iff (h : Represents v b) (op : Bit) (i : Nat) (x : Bool) :
    Yields (modifyBit op i x v) (b.update i fun old => op.onBool x old) ↔ i / 32 < v.data.length ∧
      (i < b.size ∨ 32 * span b.size ≤ i ∨ op.onBool x false = false) := by
  have hmem : ∀ j, (b.update i fun old => op.onBool x old).mem j =
    (decide (j < b.size) && (if j = i then op.onBool x (b.mem j) else b.mem j)) := fun _ => rfl
  by_cases hin : i / 32 < v.data.length
  · obtain ⟨v', hv', hmax, hlen, hbits⟩ := modifyBit_eq op x hin
    rw [hv', yields_some, and_iff_right hin, h.changed_iff hmax hlen
      (c := b.update i fun old => op.onBool x old) rfl]
    constructor
    · intro hall
      by_contra hno
      obtain ⟨hge, hlt, hset⟩ : b.size ≤ i ∧ i < 32 * span b.size ∧ op.onBool x false ≠ false := by
        rw [not_or, not_or] at hno
        exact ⟨not_lt.mp hno.1, not_le.mp hno.2.1, hno.2.2⟩
      have hb := hall i hlt
      rw [hbits, if_pos rfl, h.bits i hlt, b.mem_of_le hge, hmem, decide_eq_false (not_lt.mpr hge)]
        at hb
      exact hset hb
    · intro hor j hj
      rw [hbits, h.bits j hj, hmem]
      by_cases hlt : j < b.size
      · simp [hlt]
      · rw [b.mem_of_le (not_lt.mp hlt), decide_eq_false hlt, Bool.false_and]
        split_ifs with hji
        · subst hji
          exact (hor.resolve_left hlt).resolve_left (not_le.mpr hj)
        · rfl
  · have hnone : modifyBit op i x v = none := dif_neg hin
    rw [hnone]
    exact iff_of_false not_yields_none fun hand => hin hand.1

theorem forceBit_yields (h : Represents v b) (op : Bit) (i : Nat) (x : Bool) :
    Yields (forceBit op i x v)
      ((b.resize (Nat.max b.size (i + 1))).update i fun old => op.onBool x old) := by
  obtain ⟨u, hu, hru⟩ := growTo_yields h (m := i) (n := i + 1) (by push_cast; rfl)
  have hlt : i < (b.resize (Nat.max b.size (i + 1))).size := Nat.le_max_right _ _
  have hin : i / 32 < u.data.length := by
    have hroom := hru.room
    have hle := le_words (b.resize (Nat.max b.size (i + 1))).size
    have hspan := words_le_span (b.resize (Nat.max b.size (i + 1))).size
    omega
  rw [forceBit, hu]
  exact (modifyBit_yields_iff hru op i x).mpr ⟨hin, Or.inl hlt⟩

end

end Bitvector
end BA
