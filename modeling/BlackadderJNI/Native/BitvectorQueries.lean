import BlackadderJNI.Native.BitvectorSets

/-!
# The queries of `Bitvector`, and its texts

* `zero`, `operator==`, `nonzero_intersection`, as queries of the sets;
* `toString_represents`   the text of an object is that of its set, the last bit first;
* `ofString_eq`           the constructor from a text, with the words that `memset` does not reach;
* `toString_ofString`     a text of bits is read back from its vector, whatever the memory held.
-/

namespace BA
open BitWords

namespace Bitvector

section
variable {v o : Bitvector} {b b' : Bits}

/-! ## queries -/

theorem all_zero_iff {d : List Word} {n : Nat} (hn : n ≤ d.length) :
    (d.take n).all (· == 0) = true ↔ ∀ i < 32 * n, bit d i = false := by
  have hlen : (List.replicate n (0 : Word)).length = n := List.length_replicate
  have hzeros : (List.replicate n (0 : Word)).take n = List.replicate n 0 :=
    List.take_of_length_le hlen.le
  have htake : (d.take n).all (· == 0) = true ↔ d.take n = List.replicate n 0 := by
    rw [List.eq_replicate_iff, List.length_take_of_le hn]
    simp
  rw [htake, ← hzeros, take_eq_iff (by decide) hn hlen.ge]
  exact forall₂_congr fun i _ => by rw [show bit (List.replicate n (0 : Word)) i = false from
    bit_zeros n i]

theorem zero_represents (h : Represents v b) :
    ∃ r, zero v = some r ∧ (r = true ↔ ∀ i, b.mem i = false) := by
  have hle := le_words b.size
  have hspan := words_le_span b.size
  have hzero : zero v = some ((v.data.take (words b.size)).all (· == 0)) := by
    unfold zero
    rw [h.rounds]
    exact if_pos h.words_le
  refine ⟨_, hzero, ?_⟩
  · rw [all_zero_iff h.words_le]
    refine ⟨fun hz i => ?_, fun hz i hi => (h.bits i (by omega)).trans (hz i)⟩
    by_cases hi : i < b.size
    · rw [← h.bits i (by omega), hz i (by omega)]
    · exact b.mem_of_le (not_lt.mp hi)

theorem beq_represents (h : Represents v b) (ho : Represents o b') :
    ∃ r, beq v o = some r ∧ (r = true ↔ b = b') := by
  have hmax := h.max
  have hmax' := ho.max
  have hr := h.rounds
  unfold beq
  by_cases hne : v.max ≠ o.max
  · refine ⟨false, if_pos hne, ?_⟩
    simp only [Bool.false_eq_true, false_iff]
    rintro rfl
    omega
  · have hsize : b.size = b'.size := by omega
    have hn : (if v.max ≤ maxInlineBit then 2 else Bitvector.rounds v.maxWord) = span b.size := by
      rw [hr]
      unfold maxInlineBit span words
      split_ifs <;> omega
    have hroom := ho.room
    rw [← hsize] at hroom
    simp only [hn, if_neg hne, if_pos (And.intro h.room hroom)]
    refine ⟨_, rfl, ?_⟩
    rw [beq_iff_eq, take_eq_iff (by decide) h.room hroom, Bits.ext_iff']
    have hle := le_words b.size
    have hspan := words_le_span b.size
    constructor
    · refine fun hb => ⟨hsize, fun i => ?_⟩
      by_cases hi : i < 32 * span b.size
      · rw [← h.bits i hi, ← ho.bits i (hsize ▸ hi), hb i hi]
      · rw [b.mem_of_le (by omega), b'.mem_of_le (by omega)]
    · rintro ⟨_, hb⟩ i hi
      rw [h.bits i hi, ho.bits i (hsize ▸ hi), hb i]

theorem nonzeroIntersection_represents (h : Represents v b) (ho : Represents o b') :
    ∃ r, nonzeroIntersection v o = some r ∧
      (r = true ↔ ∃ i, b.mem i = true ∧ b'.mem i = true) := by
  have hr := h.rounds
  have hr' := ho.rounds
  obtain ⟨n, hn, hmin⟩ : ∃ n, Bitvector.rounds
      (if o.maxWord > v.maxWord then v.maxWord else o.maxWord) = n ∧
      n = min (words b.size) (words b'.size) := by
    refine ⟨_, rfl, ?_⟩
    unfold Bitvector.rounds at *
    split_ifs <;> omega
  have hle : n ≤ v.data.length := by have := h.words_le; omega
  have hle' : n ≤ o.data.length := by have := ho.words_le; omega
  have hzip : List.zipWith (· &&& ·) (v.data.take n) (o.data.take n) =
      (zipFirst n (· &&& ·) v.data o.data).take n := by
    have hlen : (List.zipWith (· &&& ·) (v.data.take n) (o.data.take n)).length = n := by
      rw [List.length_zipWith, List.length_take_of_le hle, List.length_take_of_le hle',
        Nat.min_self]
    rw [zipFirst, List.take_append_of_le_length hlen.ge, List.take_of_length_le hlen.le]
  have hand : ∀ (x y : Word) j, j < 32 → (x &&& y).getLsbD j = (x.getLsbD j && y.getLsbD j) :=
    fun x y j _ => BitVec.getLsbD_and
  have hquery : nonzeroIntersection v o =
      some (!((zipFirst n (· &&& ·) v.data o.data).take n).all (· == 0)) := by
    unfold nonzeroIntersection
    simp only [hn, if_pos (And.intro hle hle'), hzip, List.not_all_eq_any_not]
    rfl
  refine ⟨_, hquery, ?_⟩
  rw [Bool.not_eq_true', ← Bool.not_eq_true,
    all_zero_iff ((length_zipFirst _ hle').symm ▸ hle), not_forall]
  have hw := le_words b.size
  have hw' := le_words b'.size
  have hspan := words_le_span b.size
  have hspan' := words_le_span b'.size
  constructor
  · rintro ⟨i, hi⟩
    rw [Classical.not_imp] at hi
    rw [bit_zipFirst (by decide) hand hle hle', if_pos hi.1, h.bits i (by omega),
      ho.bits i (by omega)] at hi
    exact ⟨i, by simpa using hi.2⟩
  · rintro ⟨i, hb, hb'⟩
    have hlt := b.lt_size i hb
    have hlt' := b'.lt_size i hb'
    refine ⟨i, fun hno => ?_⟩
    have hbit := hno (by omega)
    rw [bit_zipFirst (by decide) hand hle hle', if_pos (by omega), h.bits i (by omega),
      ho.bits i (by omega), hb, hb'] at hbit
    cases hbit

/-! ## texts -/

theorem mapM_some {α β : Type} {f : α → Option β} {g : α → β} {l : List α}
    (h : ∀ x ∈ l, f x = some (g x)) : l.mapM f = some (l.map g) := by
  induction l with
  | nil => rfl
  | cons x l ih =>
    rw [List.mapM_cons, h x List.mem_cons_self, ih fun y hy => h y (List.mem_cons_of_mem x hy)]
    rfl

/-- the characters of the bits, the last bit first -/
def digits (n : Nat) (p : Nat → Bool) : List Char :=
  (List.range n).map fun i => if p (n - i - 1) then '1' else '0'

theorem toString_eq {n : Nat} (hmax : v.max + 1 = n) (hroom : words n ≤ v.data.length) :
    toString v = some (digits n (bit v.data)) := by
  have hsize : v.size.toNat = n := by unfold size; omega
  unfold toString digits
  rw [hsize]
  refine mapM_some fun i hi => ?_
  have hlt := List.mem_range.mp hi
  have hle := le_words n
  rw [get_eq (by omega)]
  rfl

theorem toString_represents (h : Represents v b) : toString v = some (digits b.size b.mem) := by
  have hle := le_words b.size
  have hspan := words_le_span b.size
  rw [toString_eq h.max h.words_le]
  refine congrArg some (List.map_congr_left fun i hi => ?_)
  have hlt := List.mem_range.mp hi
  rw [h.bits _ (by omega)]

/-- the loop of the constructor sets the bits of the characters '1' -/
theorem ofStringLoop_eq {n : Nat} (x : List Char) {i : Nat} (hi : i + x.length = n)
    (hroom : words n ≤ v.data.length) : ∃ v', ofStringLoop n x i v = some v' ∧ v'.max = v.max ∧
      v'.data.length = v.data.length ∧ ∀ j, bit v'.data j =
        (bit v.data j || decide (j + i < n ∧ x[n - i - 1 - j]? = some '1')) := by
  induction x generalizing v i with
  | nil =>
    refine ⟨v, rfl, rfl, rfl, fun j => ?_⟩
    simp
  | cons c x ih =>
    rw [List.length_cons] at hi
    have hle := le_words n
    obtain ⟨u, hu, humax, hulen, hubits⟩ : ∃ u,
        (if c = '1' then modifyBit .assign (n - i - 1) true v else some v) = some u ∧
        u.max = v.max ∧ u.data.length = v.data.length ∧
        ∀ j, bit u.data j = (bit v.data j || decide (j = n - i - 1 ∧ c = '1')) := by
      by_cases hc : c = '1'
      · obtain ⟨u, hu, humax, hulen, hubits⟩ := modifyBit_eq (v := v) .assign (i := n - i - 1) true
          (by omega)
        refine ⟨u, by rw [if_pos hc]; exact hu, humax, hulen, fun j => ?_⟩
        rw [hubits]
        by_cases hj : j = n - i - 1
        · simp [hj, hc, Bit.onBool]
        · simp [hj]
      · exact ⟨v, if_neg hc, rfl, rfl, fun j => by simp [hc]⟩
    obtain ⟨v', hv', hmax, hlen, hbits⟩ := ih (v := u) (i := i + 1) (by omega) (by omega)
    refine ⟨v', ?_, by rw [hmax, humax], by omega, fun j => ?_⟩
    · rw [ofStringLoop, hu]
      exact hv'
    · rw [hbits, hubits, Bool.or_assoc, ← Bool.decide_or]
      congr 1
      refine decide_eq_decide.mpr ?_
      by_cases hj : j = n - i - 1
      · subst hj
        have h1 : n - i - 1 + i < n := by omega
        have h2 : ¬ n - i - 1 + (i + 1) < n := by omega
        simp [h1, h2]
      · by_cases hlt : j + (i + 1) < n
        · have h1 : n - i - 1 - j = n - (i + 1) - 1 - j + 1 := by omega
          have h2 : j + i < n := by omega
          rw [h1, List.getElem?_cons_succ]
          simp [hj, hlt, h2]
        · have h2 : ¬ j + i < n := by omega
          simp [hj, hlt, h2]

theorem getLsbD_memset (fresh : Nat → Word) {n k j : Nat} (h : j < 8 * min 4 (n - 4 * k)) :
    (memset fresh n k).getLsbD j = false := by
  unfold memset
  rw [BitVec.getLsbD_shiftLeft, decide_eq_true h]
  simp

/-- the words of the constructor, before its loop -/
def fresh (memory : Nat → Word) (n : Nat) : List Word := (List.range n).map (memset memory n)

/-- `memset` reaches the bits that the characters stand for -/
theorem bit_fresh_below (memory : Nat → Word) {n i : Nat} (h : i < n) :
    bit (fresh memory n) i = false := by
  have hdiv : i / 32 < (fresh memory n).length := by simp [fresh]; omega
  rw [bit_eq _ hdiv]
  simp only [fresh, List.getElem_map, List.getElem_range]
  exact getLsbD_memset memory (by omega)

/-- the set of the characters '1', counted from the end -/
def ofChars (x : List Char) : Bits :=
  Bits.tabulate x.length fun i => decide (x[x.length - i - 1]? = some '1')

theorem ofString_eq (memory : Nat → Word) (garbage : Word × Word) {x : List Char}
    (hint : x.length ≤ intMax) : ∃ v', ofString memory garbage x = some v' ∧ v'.max + 1 = x.length ∧
      v'.data.length = x.length ∧ ∀ j, bit v'.data j =
        (bit (fresh memory x.length) j || (ofChars x).mem j) := by
  have hlen : (fresh memory x.length).length = x.length := by simp [fresh]
  obtain ⟨v', hv', hmax, hlen', hbits⟩ := ofStringLoop_eq
    (v := ⟨(x.length : Int) - 1, garbage.1, garbage.2, some (fresh memory x.length)⟩) x (i := 0)
    (Nat.zero_add _) (by show _ ≤ (fresh memory x.length).length; unfold words; omega)
  refine ⟨v', (if_pos hint).trans hv', by rw [hmax]; simp, hlen'.trans hlen, fun j => ?_⟩
  rw [hbits]
  show (bit (fresh memory x.length) j || _) = _
  congr 1
  show _ = (decide (j < x.length) && decide (x[x.length - j - 1]? = some '1'))
  rw [← Bool.decide_and]
  have hidx : x.length - 0 - 1 - j = x.length - j - 1 := by omega
  rw [hidx, Nat.add_zero]

/-- the constructor leaves what `memset` does not reach above the size, in a word for each
character -/
theorem ofString_yields_iff (memory : Nat → Word) (garbage : Word × Word) {x : List Char}
    (hint : x.length ≤ intMax) : Yields (ofString memory garbage x) (ofChars x) ↔
      span x.length ≤ x.length ∧
      ∀ i < 32 * span x.length, x.length ≤ i → bit (fresh memory x.length) i = false := by
  obtain ⟨v', hv', hmax, hlen, hbits⟩ := ofString_eq memory garbage hint
  rw [hv', yields_some]
  constructor
  · intro hr
    have hroom := hr.room
    rw [hlen] at hroom
    refine ⟨hroom, fun i hi hge => ?_⟩
    have hb := hr.bits i hi
    rw [hbits, (ofChars x).mem_of_le hge, Bool.or_false] at hb
    exact hb
  · refine fun ⟨hroom, hclear⟩ => ⟨hmax, hlen.symm ▸ hroom, fun i hi => ?_⟩
    rw [hbits]
    by_cases hlt : i < x.length
    · rw [bit_fresh_below memory hlt, Bool.false_or]
    · rw [hclear i hi (not_lt.mp hlt), Bool.false_or]

theorem digits_ofChars (x : List Char) :
    digits x.length (ofChars x).mem = x.map fun c => if c = '1' then '1' else '0' := by
  refine List.ext_getElem? fun k => ?_
  unfold digits
  rw [List.getElem?_map, List.getElem?_map]
  by_cases hk : k < x.length
  · have hrange : (List.range x.length)[k]? = some k := by simp [hk]
    have hmem : (ofChars x).mem (x.length - k - 1) = decide (x[k] = '1') := by
      show (decide (x.length - k - 1 < x.length) &&
        decide (x[x.length - (x.length - k - 1) - 1]? = some '1')) = _
      have hidx : x.length - (x.length - k - 1) - 1 = k := by omega
      have hlt : x.length - k - 1 < x.length := by omega
      simp [hidx, hlt, hk]
    rw [hrange, List.getElem?_eq_getElem hk, Option.map_some, Option.map_some, hmem]
    simp
  · have hrange : (List.range x.length)[k]? = none := by simp; omega
    rw [hrange, List.getElem?_eq_none (by omega)]
    rfl

/-- **A text of bits is read back from its vector**, whatever `new` and the inline words held. -/
theorem toString_ofString (memory : Nat → Word) (garbage : Word × Word) {x : List Char}
    (hint : x.length ≤ intMax) : (ofString memory garbage x).bind toString =
    some (x.map fun c => if c = '1' then '1' else '0') := by
  obtain ⟨v', hv', hmax, hlen, hbits⟩ := ofString_eq memory garbage hint
  rw [hv', Option.bind_some, toString_eq hmax (by rw [hlen]; unfold words; omega),
    ← digits_ofChars]
  refine congrArg some (List.map_congr_left fun i hi => ?_)
  have hlt := List.mem_range.mp hi
  rw [hbits, bit_fresh_below memory (by omega), Bool.false_or]

/-- memory full of ones: the words past the zeroed bytes keep them -/
theorem toString_ofString_dirty :
    (ofString (fun _ => 0xFFFFFFFF#32) (7, 7) ['1', 'x', '0', '1']).bind toString =
      some ['1', '0', '0', '1'] :=
  toString_ofString _ _ (by decide)

end

end Bitvector
end BA
