import BlackadderJNI.Lib.Matching
import BlackadderJNI.Native.BitvectorSets

/-!
# The loops of `Bitvector` that read what they have written

The operands of `offset_or` and `or_with_difference` may be one object.

* `moved`                 the bits after each round of `offset_or`, which reads the bits of another
                          object, or its own as they are by then;
* `NoEcho`                what an object that is its own operand needs besides: moving once what has
                          been moved already adds nothing;
* `offsetOr_yields_iff`, `offsetOr_self_yields_iff`   when `offset_or` is the union with the set
                          moved up;
* `merged`                what one round of `or_with_difference` makes of a bit of each object;
* `orWithDifference_iff`  when it is `diff = o - *this; *this |= o;` on sets.
-/

namespace BA
open BitWords

namespace Bitvector

section
variable {v : Bitvector} {a b : Bits}

/-! ## `offset_or` -/

/-- no member that is moved up twice, the second time after the first, gets to where there is
neither a member nor one moved up once -/
def NoEcho (b : Bits) (k : Nat) : Prop :=
  ∀ i < 32 * words b.size, 2 * k ≤ i → (i - 2 * k) / 32 < (i - k) / 32 →
    b.mem (i - 2 * k) = true → b.mem i = true ∨ b.mem (i - k) = true

instance (b : Bits) (k : Nat) : Decidable (NoEcho b k) :=
  inferInstanceAs (Decidable (∀ i < 32 * words b.size, 2 * k ≤ i →
    (i - 2 * k) / 32 < (i - k) / 32 → b.mem (i - 2 * k) = true →
    b.mem i = true ∨ b.mem (i - k) = true))

/-- a word that is moved up by `c`: its parts in the word `q` and in the next one -/
theorem shift_word (val : Word) {c : Nat} (hc : c < 32) (q i : Nat) :
    (decide (i / 32 = q) && (val <<< c).getLsbD (i % 32) ||
      decide (i / 32 = q + 1) && (val >>> (32 - c)).getLsbD (i % 32)) =
    (decide (32 * q + c ≤ i ∧ i < 32 * q + c + 32) && val.getLsbD (i - (32 * q + c))) := by
  rw [BitVec.getLsbD_shiftLeft, BitVec.getLsbD_ushiftRight]
  by_cases hlow : i / 32 = q
  · have hhigh : ¬ i / 32 = q + 1 := by omega
    have h32 : i % 32 < 32 := Nat.mod_lt _ (by decide)
    by_cases hcut : i % 32 < c
    · have hno : ¬ (32 * q + c ≤ i ∧ i < 32 * q + c + 32) := by omega
      simp [hlow, hcut, hno]
    · have hin : 32 * q + c ≤ i ∧ i < 32 * q + c + 32 := by omega
      have hidx : i - (32 * q + c) = i % 32 - c := by omega
      simp [hlow, hcut, h32, hin, hidx]
  · by_cases hhigh : i / 32 = q + 1
    · by_cases hcut : i % 32 < c
      · have hin : 32 * q + c ≤ i ∧ i < 32 * q + c + 32 := by omega
        have hidx : i - (32 * q + c) = 32 - c + i % 32 := by omega
        simp [hhigh, hin, hidx]
      · have hno : ¬ (32 * q + c ≤ i ∧ i < 32 * q + c + 32) := by omega
        have hout : val.getLsbD (32 - c + i % 32) = false :=
          BitVec.getLsbD_of_ge _ _ (by omega)
        simp [hhigh, hno, hout]
    · have hno : ¬ (32 * q + c ≤ i ∧ i < 32 * q + c + 32) := by omega
      simp [hlow, hhigh, hno]

theorem or_word {k : Nat} (x : Word) (h : k < v.data.length) :
    ∃ v', modifyWord k (· ||| x) v = some v' ∧ v'.max = v.max ∧ v'.data.length = v.data.length ∧
      ∀ i, bit v'.data i = (bit v.data i || decide (i / 32 = k) && x.getLsbD (i % 32)) := by
  obtain ⟨v', hv', hmax, hlen, hbits⟩ := modifyWord_eq (· ||| x) h
  refine ⟨v', hv', hmax, hlen, fun i => ?_⟩
  rw [hbits]
  by_cases hi : i / 32 = k
  · subst hi
    rw [if_pos rfl, BitVec.getLsbD_or, ← bit_eq _ h]
    simp
  · simp [hi]

/-- The bits `f` after `p` rounds: each adds a word, moved up by `k`, below `M` words.  It is a word
of `src`, or of the bits that the rounds before have left. -/
def moved (src : Option (Nat → Bool)) (k M : Nat) (f : Nat → Bool) : Nat → Nat → Bool
  | 0, i => f i
  | p + 1, i => moved src k M f p i ||
    (decide (k + 32 * p ≤ i ∧ i < k + 32 * p + 32 ∧ i < 32 * M) &&
      (src.getD (moved src k M f p)) (i - k))

section
variable {src : Option (Nat → Bool)} {k M p i : Nat} {f : Nat → Bool}

theorem moved_mono {p' : Nat} (h : moved src k M f p i = true) (hp : p ≤ p') :
    moved src k M f p' i = true := by
  induction p', hp using Nat.le_induction with
  | base => exact h
  | succ p' _ ih => rw [moved, ih, Bool.true_or]

/-- a round that starts above `M` words adds nothing, nor do those after it -/
theorem moved_stop (h : 32 * M ≤ k + 32 * p) (n : Nat) :
    moved src k M f (p + n) = moved src k M f p := by
  induction n with
  | zero => rfl
  | succ n ih =>
    funext i
    have hno : ¬ (k + 32 * (p + n) ≤ i ∧ i < k + 32 * (p + n) + 32 ∧ i < 32 * M) := by omega
    rw [← Nat.add_assoc, moved, decide_eq_false hno, Bool.false_and, Bool.or_false, ih]

theorem moved_some {g : Nat → Bool} : moved (some g) k M f p i =
    (f i || (decide (k ≤ i ∧ i < k + 32 * p ∧ i < 32 * M) && g (i - k))) := by
  induction p with
  | zero =>
    have hno : ¬ (k ≤ i ∧ i < k + 32 * 0 ∧ i < 32 * M) := by omega
    rw [moved, decide_eq_false hno, Bool.false_and, Bool.or_false]
  | succ p ih =>
    rw [moved, ih, Option.getD_some, Bool.or_assoc, ← Bool.and_or_distrib_right, ← Bool.decide_or]
    have hiff : (k ≤ i ∧ i < k + 32 * p ∧ i < 32 * M) ∨
        (k + 32 * p ≤ i ∧ i < k + 32 * p + 32 ∧ i < 32 * M) ↔
        k ≤ i ∧ i < k + 32 * (p + 1) ∧ i < 32 * M := by omega
    rw [decide_eq_decide.mpr hiff]

/-- what lies above does not matter -/
theorem moved_congr {f' : Nat → Bool} {n : Nat} (h : ∀ i < n, f i = f' i) :
    ∀ i < n, moved none k M f p i = moved none k M f' p i := by
  induction p with
  | zero => exact h
  | succ p ih =>
    intro i hi
    rw [moved, moved, ih i hi]
    show (_ || (_ && moved none k M f p (i - k))) = (_ || (_ && moved none k M f' p (i - k)))
    rw [ih (i - k) (by omega)]

/-- what is moved by its own round is there afterwards -/
theorem moved_of_mem (h : moved none k M f ((i - k) / 32) (i - k) = true) (hk : k ≤ i)
    (hp : i < k + 32 * p) (hM : i < 32 * M) : moved none k M f p i = true := by
  refine moved_mono (p := (i - k) / 32 + 1) ?_ (by omega)
  have hround : k + 32 * ((i - k) / 32) ≤ i ∧ i < k + 32 * ((i - k) / 32) + 32 ∧ i < 32 * M := by
    omega
  rw [moved, decide_eq_true hround]
  show (_ || (true && moved none k M f ((i - k) / 32) (i - k))) = true
  rw [h, Bool.and_true, Bool.or_true]

/-- an object that is its own operand is moved at least as another one would be -/
theorem moved_of_some (h : moved (some f) k M f p i = true) : moved none k M f p i = true := by
  rw [moved_some, Bool.or_eq_true, Bool.and_eq_true, decide_eq_true_iff] at h
  rcases h with h | ⟨hin, h⟩
  · exact moved_mono (p := 0) h (Nat.zero_le p)
  · exact moved_of_mem (moved_mono (p := 0) h (Nat.zero_le _)) hin.1 hin.2.1 hin.2.2

/-- and without an echo no more than that -/
theorem moved_self (hecho : ∀ i < 32 * M, 2 * k ≤ i → (i - 2 * k) / 32 < (i - k) / 32 →
    f (i - 2 * k) = true → f i = true ∨ f (i - k) = true) :
    moved none k M f p i = true ↔ moved (some f) k M f p i = true := by
  refine ⟨fun h => ?_, moved_of_some⟩
  rw [moved_some, Bool.or_eq_true, Bool.and_eq_true, decide_eq_true_iff]
  induction p generalizing i with
  | zero => exact Or.inl h
  | succ p ih =>
    rw [moved, Bool.or_eq_true, Bool.and_eq_true, decide_eq_true_iff] at h
    rcases h with h | ⟨hround, h⟩
    · exact (ih h).imp_right fun hand => ⟨by omega, hand.2⟩
    · rcases ih h with h | ⟨hagain, h⟩
      · exact Or.inr ⟨by omega, h⟩
      · -- moved by an earlier round, and now once more
        have hsub : i - k - k = i - 2 * k := by omega
        rw [hsub] at h
        exact (hecho i hround.2.2 (by omega) (by omega) h).imp_right fun h => ⟨by omega, h⟩

/-- a member that is moved and then read again is moved twice -/
theorem moved_twice (h : f (i - 2 * k) = true) (hk : 2 * k ≤ i)
    (hagain : (i - 2 * k) / 32 < (i - k) / 32) (hp : i < k + 32 * p) (hM : i < 32 * M) :
    moved none k M f p i = true := by
  have hsub : i - k - k = i - 2 * k := by omega
  have hfirst : moved none k M f ((i - k - k) / 32) (i - k - k) = true :=
    moved_mono (p := 0) (hsub ▸ h) (Nat.zero_le _)
  exact moved_of_mem (moved_of_mem hfirst (by omega) (by omega) (by omega)) (by omega) hp hM

end

/-- one round: the word is added below the end of the vector, which is at `M` words -/
theorem moveWord_eq {c q M : Nat} (hc : c < 32) {myMaxWord : Int}
    (hM : (q + 1 : Int) > myMaxWord ↔ M ≤ q + 1) (hq : q < M) (hlen : M ≤ v.data.length)
    (val : Word) : ∃ u v', modifyWord q (· ||| val <<< c) v = some u ∧
      (if (q + 1 : Int) > myMaxWord then some u
        else if c ≠ 0 then modifyWord (q + 1) (· ||| val >>> (32 - c)) u else some u) = some v' ∧
      v'.max = v.max ∧ v'.data.length = v.data.length ∧ ∀ i, bit v'.data i = (bit v.data i ||
        (decide (32 * q + c ≤ i ∧ i < 32 * q + c + 32 ∧ i < 32 * M) &&
          val.getLsbD (i - (32 * q + c)))) := by
  obtain ⟨u, hu, humax, hulen, hubits⟩ := or_word (val <<< c) (hq.trans_le hlen)
  have hcut : ∀ i, (decide (32 * q + c ≤ i ∧ i < 32 * q + c + 32 ∧ i < 32 * M) &&
      val.getLsbD (i - (32 * q + c))) = (decide (i < 32 * M) &&
        (decide (32 * q + c ≤ i ∧ i < 32 * q + c + 32) && val.getLsbD (i - (32 * q + c)))) := by
    intro i
    rw [← Bool.and_assoc, ← Bool.decide_and]
    congr 1
    exact decide_eq_decide.mpr (by omega)
  by_cases hend : (q + 1 : Int) > myMaxWord
  · have hlast : M = q + 1 := by have := hM.mp hend; omega
    refine ⟨u, u, hu, if_pos hend, humax, hulen, fun i => ?_⟩
    rw [hubits, hcut, ← shift_word val hc q i]
    by_cases hi : i < 32 * M
    · have hhigh : ¬ i / 32 = q + 1 := by omega
      simp [hi, hhigh]
    · have hlow : ¬ i / 32 = q := by omega
      simp [hi, hlow]
  · have hnext : q + 1 < M := by
      by_contra hno
      exact hend (hM.mpr (by omega))
    obtain ⟨v', hv', hmax, hlen', hbits⟩ : ∃ v',
        (if c ≠ 0 then modifyWord (q + 1) (· ||| val >>> (32 - c)) u else some u) = some v' ∧
        v'.max = u.max ∧ v'.data.length = u.data.length ∧ ∀ i, bit v'.data i =
          (bit u.data i || decide (i / 32 = q + 1) && (val >>> (32 - c)).getLsbD (i % 32)) := by
      by_cases h0 : c ≠ 0
      · rw [if_pos h0]
        exact or_word _ (hulen ▸ hnext.trans_le hlen)
      · -- there is no upper part
        rw [if_neg h0]
        refine ⟨u, rfl, rfl, rfl, fun i => ?_⟩
        rw [BitVec.getLsbD_ushiftRight, BitVec.getLsbD_of_ge _ _ (by omega), Bool.and_false,
          Bool.or_false]
    refine ⟨u, v', hu, (if_neg hend).trans hv', hmax.trans humax, hlen'.trans hulen, fun i => ?_⟩
    rw [hbits, hubits, hcut, ← shift_word val hc q i, Bool.or_assoc]
    by_cases hi : i < 32 * M
    · simp [hi]
    · have hlow : ¬ i / 32 = q := by omega
      have hhigh : ¬ i / 32 = q + 1 := by omega
      simp [hi, hlow, hhigh]

/-- the words that the loop reads, as bits: those of another object, or the object's own -/
theorem source_eq (o : Option Bitvector) (v : Bitvector) :
    (o.map fun o => bit o.data).getD (bit v.data) = bit (o.getD v).data := by
  cases o <;> rfl

theorem offsetOrLoop_eq (o : Option Bitvector) {c q M : Nat} (hc : c < 32) {myMaxWord : Int}
    (hM : ∀ p, ((q + p : Nat) + 1 : Int) > myMaxWord ↔ M ≤ q + p + 1) {f : Nat → Bool}
    (rounds : Nat) {p : Nat} (hq : q + p < M) (hlen : M ≤ v.data.length)
    (hread : ∀ u : Bitvector, u.data.length = v.data.length →
      p + rounds ≤ (o.getD u).data.length)
    (hbits : bit v.data = moved (o.map fun o => bit o.data) (32 * q + c) M f p) :
    ∃ v', offsetOrLoop (fun v k => (o.getD v).data[k]?) c myMaxWord rounds p (q + p) v = some v' ∧
      v'.max = v.max ∧ v'.data.length = v.data.length ∧
      bit v'.data = moved (o.map fun o => bit o.data) (32 * q + c) M f (p + rounds) := by
  induction rounds generalizing v p with
  | zero => exact ⟨v, rfl, rfl, rfl, hbits⟩
  | succ rounds ih =>
    have hp : p < (o.getD v).data.length := by have := hread v rfl; omega
    obtain ⟨u, w, hu, hw, hwmax, hwlen, hwbits⟩ :=
      moveWord_eq hc (hM p) hq hlen (o.getD v).data[p]
    have hround : bit w.data =
        moved (o.map fun o => bit o.data) (32 * q + c) M f (p + 1) := by
      funext i
      rw [hwbits, moved, ← hbits, source_eq]
      have hpos : 32 * (q + p) + c = 32 * q + c + 32 * p := by omega
      rw [hpos]
      by_cases hin : 32 * q + c + 32 * p ≤ i ∧ i < 32 * q + c + 32 * p + 32 ∧ i < 32 * M
      · have hdiv : (i - (32 * q + c)) / 32 = p := by omega
        have hmod : (i - (32 * q + c)) % 32 = i - (32 * q + c + 32 * p) := by omega
        have hword : bit (o.getD v).data (i - (32 * q + c)) =
            (o.getD v).data[p].getLsbD (i - (32 * q + c + 32 * p)) := by
          rw [bit_eq _ (by rw [hdiv]; exact hp), hmod]
          congr 2
        rw [hword]
      · rw [decide_eq_false hin, Bool.false_and, Bool.false_and]
    unfold offsetOrLoop
    simp only [List.getElem?_eq_getElem hp, hu, Option.bind_eq_bind, Option.bind_some]
    by_cases hend : ((q + p : Nat) + 1 : Int) > myMaxWord
    · rw [if_pos hend] at hw
      cases hw
      have hlast : 32 * M ≤ 32 * q + c + 32 * (p + 1) := by have := (hM p).mp hend; omega
      refine ⟨u, if_pos hend, hwmax, hwlen, ?_⟩
      rw [hround, show p + (rounds + 1) = p + 1 + rounds by omega, moved_stop hlast]
    · rw [if_neg hend] at hw ⊢
      have hnext : q + (p + 1) < M := by
        by_contra hno
        exact hend ((hM p).mpr (by omega))
      obtain ⟨v', hv', hmax, hlen', hbits'⟩ := ih (v := w) (p := p + 1) hnext (hwlen ▸ hlen)
        (fun u' hu' => by have := hread u' (hu'.trans hwlen); omega) hround
      refine ⟨v', ?_, hmax.trans hwmax, hlen'.trans hwlen, ?_⟩
      · split_ifs at hw ⊢
        · rw [hw]
          exact hv'
        · cases hw
          exact hv'
      · rw [hbits', show p + (rounds + 1) = p + 1 + rounds by omega]

/-- the end of the words that `offset_or` writes to -/
def offsetEnd (n offset : Nat) : Nat := Nat.max (words n) (offset / 32 + 1)

theorem offsetOr_eq (o : Option Bitvector) (h : Represents v a) (ho : Represents (o.getD v) b)
    (hroom : ∀ u : Bitvector, u.data.length = v.data.length →
      reach b.size ≤ (o.getD u).data.length) {offset : Nat} (hin : offset / 32 < v.data.length) :
    ∃ v', offsetOr o offset v = some v' ∧ v'.max = v.max ∧ v'.data.length = v.data.length ∧
      bit v'.data = moved (o.map fun o => bit o.data) offset (offsetEnd a.size offset)
        (bit v.data) (reach b.size) := by
  have hn : (if Bitvector.rounds (o.getD v).maxWord = 0 then 1
      else Bitvector.rounds (o.getD v).maxWord) = reach b.size := by
    rw [ho.rounds]
    unfold reach
    split_ifs <;> omega
  have hmax : v.maxWord + 1 = words a.size := by
    have hsize := h.max
    unfold maxWord words
    split_ifs <;> omega
  have hle : words a.size ≤ offsetEnd a.size offset := Nat.le_max_left _ _
  have hend : offsetEnd a.size offset ≤ v.data.length := Nat.max_le.mpr ⟨h.words_le, hin⟩
  have hq : offset / 32 < offsetEnd a.size offset := Nat.le_max_right _ _
  have hM : ∀ p, ((offset / 32 + p : Nat) + 1 : Int) > v.maxWord ↔
      offsetEnd a.size offset ≤ offset / 32 + p + 1 := by
    intro p
    rw [offsetEnd, Nat.max_le]
    omega
  obtain ⟨v', hv', hvmax, hlen, hbits⟩ := offsetOrLoop_eq o (c := offset % 32)
    (Nat.mod_lt _ (by decide)) hM (reach b.size) (p := 0) hq hend
    (fun u hu => by have := hroom u hu; omega) rfl
  rw [Nat.div_add_mod, Nat.zero_add] at hbits
  refine ⟨v', ?_, hvmax, hlen, hbits⟩
  unfold offsetOr
  simp only [hn]
  exact hv'

/-- the word at the offset is written to in any case -/
theorem offsetOr_outside (o : Option Bitvector) {offset : Nat}
    (hout : v.data.length ≤ offset / 32) : offsetOr o offset v = none := by
  have hnone : ∀ f, modifyWord (offset / 32) f v = none := fun f => dif_neg (not_lt.mpr hout)
  obtain ⟨n, hn⟩ : ∃ n, (if Bitvector.rounds (o.getD v).maxWord = 0 then 1
      else Bitvector.rounds (o.getD v).maxWord) = n + 1 := by
    split_ifs with h0
    · exact ⟨0, rfl⟩
    · exact Nat.exists_eq_succ_of_ne_zero h0
  unfold offsetOr
  simp only [hn]
  unfold offsetOrLoop
  cases (o.getD v).data[0]? with
  | none => rfl
  | some val => simp only [hnone, Option.bind_eq_bind, Option.bind_some, Option.bind_none]

/-- the bits of `a`, with those of `b` moved up over the words that `offset_or` writes to -/
def raised (a b : Bits) (k i : Nat) : Bool :=
  a.mem i || (decide (k ≤ i ∧ i < 32 * offsetEnd a.size k) && b.mem (i - k))

theorem raised_of_mem {k i : Nat} (h : (a.shiftUnion b k).mem i = true) :
    raised a b k i = true := by
  obtain ⟨hlt, hor⟩ := Bool.and_eq_true_iff.mp h
  have hle := le_words a.size
  have hend : words a.size ≤ offsetEnd a.size k := Nat.le_max_left _ _
  have hM : i < 32 * offsetEnd a.size k := by
    have := of_decide_eq_true hlt
    omega
  rw [raised]
  simpa [hM] using hor

/-- nothing is moved to above the size -/
theorem raised_iff_gap (a b : Bits) (k : Nat) :
    (∀ i < 32 * span a.size, raised a b k i = (a.shiftUnion b k).mem i) ↔
      b.Gap (a.size - k) (32 * Nat.min (span a.size) (offsetEnd a.size k) - k) := by
  have hle := le_words a.size
  have hend : words a.size ≤ offsetEnd a.size k := Nat.le_max_left _ _
  have hmin : ∀ i, i < 32 * Nat.min (span a.size) (offsetEnd a.size k) ↔
      i < 32 * span a.size ∧ i < 32 * offsetEnd a.size k := by
    intro i
    show i < 32 * min _ _ ↔ _
    omega
  have hmem : ∀ i, (a.shiftUnion b k).mem i =
    (decide (i < a.size) && (a.mem i || (decide (k ≤ i) && b.mem (i - k)))) := fun _ => rfl
  constructor
  · intro hall i hi hge
    obtain ⟨hspan, hM⟩ := (hmin (i + k)).mp (by omega)
    have hb := hall (i + k) hspan
    have hlt : ¬ i + k < a.size := by omega
    rw [raised, hmem, a.mem_of_le (not_lt.mp hlt), decide_eq_false hlt, Nat.add_sub_cancel] at hb
    simpa [hM] using hb
  · intro hgap i hi
    rw [raised, hmem]
    by_cases hlt : i < a.size
    · have hM : i < 32 * offsetEnd a.size k := by omega
      simp [hlt, hM]
    · rw [a.mem_of_le (not_lt.mp hlt), decide_eq_false hlt]
      by_cases hin : k ≤ i ∧ i < 32 * offsetEnd a.size k
      · have hlast := (hmin i).mpr ⟨hi, hin.2⟩
        rw [hgap (i - k) (by omega) (by omega), Bool.and_false]
        rfl
      · rw [decide_eq_false hin]
        rfl

/-- the rounds move every word of the other object -/
theorem moved_eq_raised {f g : Nat → Bool} {k i : Nat} (hf : f i = a.mem i)
    (hg : ∀ i < 32 * reach b.size, g i = b.mem i) :
    moved (some g) k (offsetEnd a.size k) f (reach b.size) i = raised a b k i := by
  have hle := le_words b.size
  rw [moved_some, raised, hf]
  congr 1
  by_cases hin : k ≤ i ∧ i < 32 * offsetEnd a.size k
  · by_cases hlast : i < k + 32 * reach b.size
    · rw [decide_eq_true hin, decide_eq_true ⟨hin.1, hlast, hin.2⟩, hg _ (by omega)]
    · have hb : b.mem (i - k) = false := b.mem_of_le (by unfold reach at hlast; omega)
      have hno : ¬ (k ≤ i ∧ i < k + 32 * reach b.size ∧ i < 32 * offsetEnd a.size k) :=
        fun hand => hlast hand.2.1
      rw [decide_eq_false hno, hb, Bool.and_false, Bool.false_and]
  · have hno : ¬ (k ≤ i ∧ i < k + 32 * reach b.size ∧ i < 32 * offsetEnd a.size k) :=
      fun hand => hin ⟨hand.1, hand.2.2⟩
    rw [decide_eq_false hno, decide_eq_false hin, Bool.false_and, Bool.false_and]

/-- `offset_or` of another object: it does not cut off what it moves above the size. -/
theorem offsetOr_yields_iff {o : Bitvector} (h : Represents v a) (ho : Represents o b)
    (offset : Nat) : Yields (offsetOr (some o) offset v) (a.shiftUnion b offset) ↔
      offset / 32 < v.data.length ∧
      b.Gap (a.size - offset) (32 * Nat.min (span a.size) (offsetEnd a.size offset) - offset) := by
  by_cases hin : offset / 32 < v.data.length
  · have hreach := (reach_le_span b.size).trans ho.room
    obtain ⟨v', hv', hmax, hlen, hbits⟩ := offsetOr_eq (some o) h ho (fun _ _ => hreach) hin
    rw [hv', yields_some, and_iff_right hin, ← raised_iff_gap,
      h.changed_iff hmax hlen (c := a.shiftUnion b offset) rfl]
    refine forall₂_congr fun i hi => ?_
    have hspan := reach_le_span b.size
    have hraised : bit v'.data i = raised a b offset i := (congrFun hbits i).trans
      (moved_eq_raised (h.bits i hi) fun i hi => ho.bits i (by omega))
    rw [hraised]
  · rw [offsetOr_outside _ (not_lt.mp hin)]
    exact iff_of_false not_yields_none fun hand => hin hand.1

theorem NoEcho.moved_self (h : NoEcho a k) (p i : Nat) :
    moved none k (offsetEnd a.size k) a.mem p i =
      moved (some a.mem) k (offsetEnd a.size k) a.mem p i := by
  rw [Bool.eq_iff_iff, Bitvector.moved_self]
  intro i hi hk hagain
  have hM : i < 32 * words a.size := by
    -- one round alone where the vector ends below the offset
    have hend : i < 32 * Nat.max (words a.size) (k / 32 + 1) := hi
    rcases Nat.le_total (words a.size) (k / 32 + 1) with hle | hle
    · rw [show Nat.max _ _ = k / 32 + 1 from Nat.max_eq_right hle] at hend
      omega
    · rw [show Nat.max _ _ = words a.size from Nat.max_eq_left hle] at hend
      exact hend
  exact h i hM hk hagain

/-- `offset_or` of an object with itself: besides, nothing is moved again. -/
theorem offsetOr_self_yields_iff (h : Represents v a) (offset : Nat) :
    Yields (offsetOr none offset v) (a.shiftUnion a offset) ↔ (offset / 32 < v.data.length ∧
      a.Gap (a.size - offset) (32 * Nat.min (span a.size) (offsetEnd a.size offset) - offset)) ∧
      NoEcho a offset := by
  by_cases hin : offset / 32 < v.data.length
  · have hspan := reach_le_span a.size
    obtain ⟨v', hv', hmax, hlen, hbits⟩ := offsetOr_eq none h h
      (fun u hu => hspan.trans (h.room.trans hu.ge)) hin
    have hread : ∀ i < 32 * span a.size, bit v'.data i =
        moved none offset (offsetEnd a.size offset) a.mem (reach a.size) i := by
      intro i hi
      rw [hbits]
      exact moved_congr h.bits i hi
    have hraised : ∀ i, moved (some a.mem) offset (offsetEnd a.size offset) a.mem (reach a.size) i =
        raised a a offset i := fun i => moved_eq_raised rfl fun _ _ => rfl
    rw [hv', yields_some, and_iff_right hin, ← raised_iff_gap,
      h.changed_iff hmax hlen (c := a.shiftUnion a offset) rfl]
    constructor
    · intro hall
      have hsub : ∀ i < 32 * span a.size, moved none offset (offsetEnd a.size offset) a.mem
          (reach a.size) i = true → (a.shiftUnion a offset).mem i = true := by
        intro i hi hm
        rw [← hall i hi, hread i hi, hm]
      refine ⟨fun i hi => ?_, fun i hi hk hagain ha => ?_⟩
      · rw [Bool.eq_iff_iff]
        refine ⟨fun hm => hsub i hi (moved_of_some (hraised i ▸ hm)), raised_of_mem⟩
      · have hset := hsub i (by have := words_le_span a.size; omega) (moved_twice ha hk hagain
          (by unfold reach; omega) (hi.trans_le (Nat.mul_le_mul_left 32 (Nat.le_max_left _ _))))
        have hor := (Bool.and_eq_true_iff.mp hset).2
        rw [Bool.or_eq_true, Bool.and_eq_true] at hor
        exact hor.imp_right And.right
    · rintro ⟨hall, hecho⟩ i hi
      rw [hread i hi, hecho.moved_self, hraised, hall i hi]
  · rw [offsetOr_outside _ (not_lt.mp hin)]
    exact iff_of_false not_yields_none fun hand => hin hand.1.1

/-! ## `or_with_difference` -/

/-- what the writing of words does not change of the objects -/
def shape (vs : List Bitvector) : List (Int × Nat) := vs.map fun v => (v.max, v.data.length)

theorem length_wordsOf {vs vs' : List Bitvector} (h : shape vs' = shape vs) (j : Nat) :
    (wordsOf vs' j).length = (wordsOf vs j).length := by
  have hlen : ∀ us : List Bitvector, (wordsOf us j).length = ((shape us)[j]?.map (·.2)).getD 0 := by
    intro us
    rw [wordsOf, shape, List.getElem?_map]
    cases us[j]? <;> rfl
  rw [hlen, hlen, h]

theorem wordsOf_eq {vs : List Bitvector} {j : Nat} (h : vs[j]? = some v) :
    wordsOf vs j = v.data := by
  rw [wordsOf, h]
  rfl

theorem wordsOf_set {vs : List Bitvector} {j : Nat} (hj : j < vs.length) (v : Bitvector)
    (j' : Nat) : wordsOf (vs.set j v) j' = if j' = j then v.data else wordsOf vs j' := by
  unfold wordsOf
  split_ifs with he
  · rw [he, List.getElem?_set_self hj]
    rfl
  · rw [List.getElem?_set_ne (Ne.symm he)]

theorem set_self {α : Type} {l : List α} {i : Nat} {x : α} (h : l[i]? = some x) :
    l.set i x = l := by
  obtain ⟨hi, rfl⟩ := List.getElem?_eq_some_iff.mp h
  exact List.set_getElem_self hi

theorem setWordOf_eq {vs : List Bitvector} {j k : Nat} (w : Word) (h : k < (wordsOf vs j).length) :
    ∃ vs', setWordOf j k w vs = some vs' ∧ shape vs' = shape vs ∧ ∀ j' n, bit (wordsOf vs' j') n =
      if j' = j ∧ n / 32 = k then w.getLsbD (n % 32) else bit (wordsOf vs j') n := by
  obtain ⟨v, hv⟩ : ∃ v, vs[j]? = some v := by
    refine Option.ne_none_iff_exists'.mp fun hnone => ?_
    rw [wordsOf, hnone] at h
    exact absurd h (Nat.not_lt_zero k)
  have hj := (List.getElem?_eq_some_iff.mp hv).1
  rw [wordsOf_eq hv] at h
  obtain ⟨v', hv', hmax, hlen, hbits⟩ := modifyWord_eq (fun _ => w) h
  refine ⟨vs.set j v', by rw [setWordOf, hv]; simp [hv'], ?_, fun j' n => ?_⟩
  · rw [shape, List.map_set, hmax, hlen]
    exact set_self (by rw [List.getElem?_map, hv, Option.map_some])
  · rw [wordsOf_set hj]
    by_cases hj' : j' = j
    · rw [if_pos hj', hbits, hj', wordsOf_eq hv]
      simp
    · simp [hj']

/-- a bit of each object after the round that goes over it -/
def merged (self o diff : Nat) (f : Nat → Bool) : Nat → Bool :=
  let g := Function.update f diff (f o && !f self)
  Function.update g self (g self || g o)

/-- one round -/
theorem orWithDifference_round (self o diff : Nat) {i : Nat} {vs : List Bitvector}
    (hself : i < (wordsOf vs self).length) (ho : i < (wordsOf vs o).length)
    (hdiff : i < (wordsOf vs diff).length) : ∃ vs' : List Bitvector, shape vs' = shape vs ∧
      (∀ n, orWithDifferenceLoop self o diff (n + 1) i vs =
        orWithDifferenceLoop self o diff n (i + 1) vs') ∧
      ∀ j n, bit (wordsOf vs' j) n = if n / 32 = i then
        merged self o diff (fun j => bit (wordsOf vs j) n) j else bit (wordsOf vs j) n := by
  obtain ⟨us, hus, hshape, hbits⟩ := setWordOf_eq (j := diff)
    ((wordsOf vs o)[i] &&& ~~~(wordsOf vs self)[i]) hdiff
  have hself' : i < (wordsOf us self).length := (length_wordsOf hshape self).symm ▸ hself
  have ho' : i < (wordsOf us o).length := (length_wordsOf hshape o).symm ▸ ho
  obtain ⟨ws, hws, hshape', hbits'⟩ := setWordOf_eq (j := self)
    ((wordsOf us self)[i] ||| (wordsOf us o)[i]) hself'
  refine ⟨ws, hshape'.trans hshape, fun n => ?_, fun j n => ?_⟩
  · rw [orWithDifferenceLoop, List.getElem?_eq_getElem hself, List.getElem?_eq_getElem ho]
    simp only [Option.bind_eq_bind, Option.bind_some, hus, List.getElem?_eq_getElem hself',
      List.getElem?_eq_getElem ho', hws]
  · by_cases hn : n / 32 = i
    · have hword : ∀ {vs : List Bitvector} {j : Nat} (h : i < (wordsOf vs j).length),
          (wordsOf vs j)[i].getLsbD (n % 32) = bit (wordsOf vs j) n := by
        intro vs j h
        subst hn
        exact (bit_eq _ h).symm
      have h32 : n % 32 < 32 := Nat.mod_lt _ (by decide)
      have hfirst : ∀ j, bit (wordsOf us j) n = Function.update (fun j => bit (wordsOf vs j) n) diff
          (bit (wordsOf vs o) n && !bit (wordsOf vs self) n) j := by
        intro j
        rw [hbits, Function.update_apply, BitVec.getLsbD_and, BitVec.getLsbD_not, hword ho,
          hword hself, decide_eq_true h32, Bool.true_and]
        simp [hn]
      rw [if_pos hn, hbits', merged, Function.update_apply, BitVec.getLsbD_or, hword hself',
        hword ho', hfirst, hfirst, hfirst]
      simp [hn]
    · rw [if_neg hn, hbits', hbits]
      simp [hn]

theorem orWithDifferenceLoop_eq (self o diff rounds : Nat) {i : Nat} {vs : List Bitvector}
    (hself : i + rounds ≤ (wordsOf vs self).length) (ho : i + rounds ≤ (wordsOf vs o).length)
    (hdiff : i + rounds ≤ (wordsOf vs diff).length) : ∃ vs',
      orWithDifferenceLoop self o diff rounds i vs = some vs' ∧ shape vs' = shape vs ∧
      ∀ j n, bit (wordsOf vs' j) n = if 32 * i ≤ n ∧ n < 32 * (i + rounds) then
        merged self o diff (fun j => bit (wordsOf vs j) n) j else bit (wordsOf vs j) n := by
  induction rounds generalizing i vs with
  | zero =>
    refine ⟨vs, rfl, rfl, fun j n => ?_⟩
    rw [if_neg (by omega)]
  | succ rounds ih =>
    obtain ⟨us, hshape, hround, hbits⟩ := orWithDifference_round self o diff
      (show i < (wordsOf vs self).length by omega) (by omega) (by omega)
    have hlen := length_wordsOf hshape
    obtain ⟨vs', hvs', hshape', hbits'⟩ := ih (i := i + 1) (by rw [hlen]; omega)
      (by rw [hlen]; omega) (by rw [hlen]; omega)
    refine ⟨vs', (hround rounds).trans hvs', hshape'.trans hshape, fun j n => ?_⟩
    rw [hbits']
    by_cases hn : n / 32 = i
    · rw [if_neg (by omega), hbits, if_pos hn, if_pos (by omega)]
    · have hsame : ∀ j, bit (wordsOf us j) n = bit (wordsOf vs j) n := by
        intro j
        rw [hbits, if_neg hn]
      simp only [hsame]
      congr 1
      exact propext (by omega)

/-- the loop reads every word that it goes over -/
theorem orWithDifferenceLoop_room {self o diff rounds i : Nat} {vs vs' : List Bitvector}
    (h : orWithDifferenceLoop self o diff (rounds + 1) i vs = some vs')
    (hself : i + rounds < (wordsOf vs self).length)
    (hdiff : i + rounds < (wordsOf vs diff).length) : i + rounds < (wordsOf vs o).length := by
  have hfirst : ∀ {n i : Nat} {vs : List Bitvector},
      orWithDifferenceLoop self o diff (n + 1) i vs = some vs' → i < (wordsOf vs o).length := by
    intro n i vs h
    rw [orWithDifferenceLoop] at h
    obtain ⟨_, _, h⟩ := Option.bind_eq_some_iff.mp h
    obtain ⟨_, hy, _⟩ := Option.bind_eq_some_iff.mp h
    exact (List.getElem?_eq_some_iff.mp hy).1
  induction rounds generalizing i vs with
  | zero => exact hfirst h
  | succ rounds ih =>
    obtain ⟨us, hshape, hround, _⟩ := orWithDifference_round self o diff
      (show i < (wordsOf vs self).length by omega) (hfirst h) (by omega)
    have hlen := length_wordsOf hshape
    rw [hround] at h
    have hnext := ih h (by rw [hlen]; omega) (by rw [hlen]; omega)
    rw [hlen] at hnext
    omega

/-! ### the objects and the sets -/

/-- the object has the size of the set, and the words for it -/
def Sized (v : Bitvector) (b : Bits) : Prop := v.max + 1 = b.size ∧ span b.size ≤ v.data.length

theorem Sized.of_shape {vs vs' : List Bitvector} {bs bs' : List Bits} (h : List.Forall₂ Sized vs bs)
    (hshape : shape vs' = shape vs) (hsize : bs'.map (·.size) = bs.map (·.size)) :
    List.Forall₂ Sized vs' bs' := by
  have hiff : ∀ (us : List Bitvector) (cs : List Bits), List.Forall₂ Sized us cs ↔
      List.Forall₂ (fun p (n : Nat) => p.1 + 1 = (n : Int) ∧ span n ≤ p.2) (shape us)
        (cs.map (·.size)) := by
    intro us cs
    rw [shape, List.forall₂_map_left_iff, List.forall₂_map_right_iff]
    rfl
  rw [hiff, hshape, hsize, ← hiff]
  exact h

theorem Sized.length_wordsOf {vs : List Bitvector} {bs : List Bits} (h : List.Forall₂ Sized vs bs)
    {k : Nat} {c : Bits} (hc : bs[k]? = some c) : span c.size ≤ (wordsOf vs k).length := by
  obtain ⟨v, hv, hs⟩ := Matching.getElem?_right h hc
  rw [wordsOf_eq hv]
  exact hs.2

/-- objects of the right sizes are the sets when their bits are -/
theorem forall₂_represents_iff {vs : List Bitvector} {bs : List Bits}
    (h : List.Forall₂ Sized vs bs) : List.Forall₂ Represents vs bs ↔
      ∀ k c, bs[k]? = some c → ∀ n < 32 * span c.size, bit (wordsOf vs k) n = c.mem n := by
  constructor
  · intro hr k c hc n hn
    obtain ⟨v, hv, hrep⟩ := Matching.getElem?_right hr hc
    rw [wordsOf_eq hv, hrep.bits n hn]
  · intro hall
    induction h with
    | nil => exact .nil
    | @cons v b vs bs hsized _ ih =>
      exact .cons ⟨hsized.1, hsized.2, hall 0 b rfl⟩ (ih fun k c hc => hall (k + 1) c hc)

/-- `diff = o - *this; *this |= o;`, one after the other, on sets -/
def differenceThenUnion (i j d : Nat) (bs : List Bits) : Option (List Bits) := do
  let a ← bs[i]?
  let b ← bs[j]?
  let _ ← bs[d]?
  let bs := bs.set d ((b.sdiff a).resize a.size)
  let a ← bs[i]?
  let b ← bs[j]?
  return bs.set i ((a.union b).resize a.size)

/-- The other object has the words that the loop goes over, with nothing above the size in the last
of them, and the difference is left nothing in the words above.  A difference that is the other
object is not cut off by `resize` inside its words; one that is the object itself becomes what the
other object is. -/
def DifferenceFits (i j d : Nat) (o : Store) (a b e : Bits) : Prop :=
  if d = i then
    i = j ∨ words a.size ≤ o.words ∧
      ∀ n < 32 * words a.size, o.bit n = (decide (n < a.size) && b.mem n)
  else if d = j then b.Gap a.size (32 * span a.size)
  else words a.size ≤ o.words ∧
    (∀ n < 32 * words a.size, a.mem n = false → o.bit n = (decide (n < a.size) && b.mem n)) ∧
    e.Gap (32 * words a.size) (32 * span a.size)

instance (i j d : Nat) (o : Store) (a b e : Bits) : Decidable (DifferenceFits i j d o a b e) :=
  inferInstanceAs (Decidable (if d = i then _ else if d = j then _ else _))

theorem DifferenceFits.mono {i j d : Nat} {s t : Store} {a b e : Bits} (ht : t.Covers s)
    (h : DifferenceFits i j d s a b e) : DifferenceFits i j d t a b e := by
  unfold DifferenceFits at *
  split_ifs at * with hdi hdj
  · refine h.imp_right fun ⟨hroom, hbits⟩ => ⟨hroom.trans ht.1, fun n hn => ?_⟩
    rw [ht.2 n (by omega), hbits n hn]
  · exact h
  · obtain ⟨hroom, hbits, hgap⟩ := h
    refine ⟨hroom.trans ht.1, fun n hn ha => ?_, hgap⟩
    rw [ht.2 n (by omega), hbits n hn ha]

theorem mem_sdiff_resize (a b : Bits) (n i : Nat) :
    ((b.sdiff a).resize n).mem i = (decide (i < n) && (b.mem i && !a.mem i)) := by
  show (decide (i < n) && (decide (i < b.size) && (b.mem i && !a.mem i))) = _
  cases hb : b.mem i with
  | false => simp
  | true => simp [b.lt_size i hb]

theorem mem_union_resize (a b : Bits) (n i : Nat) :
    ((a.union b).resize n).mem i = (decide (i < n) && (a.mem i || b.mem i)) := by
  show (decide (i < n) && (decide (i < Nat.max a.size b.size) && (a.mem i || b.mem i))) = _
  by_cases hi : i < Nat.max a.size b.size
  · simp [hi]
  · have ha := a.mem_of_le ((Nat.le_max_left _ _).trans (not_lt.mp hi))
    have hb := b.mem_of_le ((Nat.le_max_right _ _).trans (not_lt.mp hi))
    simp [ha, hb]

/-- the objects `us` before the loop: the difference has the size of the object, and keeps its
bits -/
structure Resized (vs us : List Bitvector) (bs : List Bits) (d : Nat) (a e : Bits) : Prop where
  sized : ∀ c : Bits, c.size = a.size → List.Forall₂ Sized us (bs.set d c)
  bits : ∀ n < 32 * span a.size, bit (wordsOf us d) n = e.mem n
  other : ∀ k, k ≠ d → wordsOf us k = wordsOf vs k

theorem orWithDifference_resized {vs : List Bitvector} {bs : List Bits} {i j d : Nat} {e : Bits}
    (h : List.Forall₂ Represents vs bs) (ha : bs[i]? = some a) (he : bs[d]? = some e) : ∃ us,
      orWithDifference i j d vs = orWithDifferenceLoop i j d (words a.size) 0 us ∧
      Resized vs us bs d a e := by
  obtain ⟨v, hv, hrv⟩ := Matching.getElem?_right h ha
  obtain ⟨x, hx, hrx⟩ := Matching.getElem?_right h he
  have hd := (List.getElem?_eq_some_iff.mp hx).1
  obtain ⟨u, hu, humax, huroom, hubits⟩ : ∃ u,
      (if x.max ≠ v.max then (resize (v.max + 1) x).map fun x => vs.set d x else some vs) =
        some (vs.set d u) ∧ u.max + 1 = a.size ∧ span a.size ≤ u.data.length ∧
      ∀ n < 32 * span a.size, bit u.data n = e.mem n := by
    by_cases hne : x.max ≠ v.max
    · obtain ⟨u, hu, hres⟩ := resize_eq hrx a.size
      rw [if_pos hne, hrv.max, hu]
      exact ⟨u, rfl, hres⟩
    · have hsize : e.size = a.size := by
        have := hrv.max
        have := hrx.max
        omega
      rw [if_neg hne]
      exact ⟨x, by rw [set_self hx], hsize ▸ hrx.max, hsize ▸ hrx.room, hsize ▸ hrx.bits⟩
  refine ⟨vs.set d u, ?_, ⟨fun c hc => ?_, fun n hn => ?_, fun k hk => ?_⟩⟩
  · have hloop : orWithDifference i j d vs = (some (vs.set d u)).bind
        (orWithDifferenceLoop i j d (rounds v.maxWord) 0) := by
      rw [← hu]
      unfold orWithDifference
      simp only [hv, hx, Option.bind_eq_bind, Option.bind_some]
      split_ifs <;> rfl
    rw [hloop, Option.bind_some, hrv.rounds]
  · exact Matching.set (h.imp fun _ _ hr => ⟨hr.max, hr.room⟩) d
      ⟨by rw [hc]; exact humax, hc ▸ huroom⟩
  · rw [wordsOf_set hd, if_pos rfl, hubits n hn]
  · rw [wordsOf_set hd, if_neg hk]

theorem getElem?_set_some {bs : List Bits} {k d : Nat} {c : Bits} (D : Bits) (hd : d < bs.length)
    (hc : bs[k]? = some c) : (bs.set d D)[k]? = some (if d = k then D else c) := by
  by_cases hk : d = k
  · subst hk
    rw [if_pos rfl, List.getElem?_set_self hd]
  · rw [if_neg hk, List.getElem?_set_ne hk, hc]

/-- the sets after both assignments -/
theorem differenceThenUnion_eq {bs : List Bits} {i j d : Nat} {e : Bits} (ha : bs[i]? = some a)
    (hb : bs[j]? = some b) (he : bs[d]? = some e) :
    differenceThenUnion i j d bs = some ((bs.set d ((b.sdiff a).resize a.size)).set i
      (((if d = i then (b.sdiff a).resize a.size else a).union
        (if d = j then (b.sdiff a).resize a.size else b)).resize a.size)) := by
  have hd := (List.getElem?_eq_some_iff.mp he).1
  have hsize : (if d = i then (b.sdiff a).resize a.size else a).size = a.size := by
    split_ifs <;> rfl
  unfold differenceThenUnion
  simp only [ha, hb, he, getElem?_set_some _ hd ha, getElem?_set_some _ hd hb, hsize,
    Option.bind_eq_bind, Option.bind_some]
  rfl

/-! ### the bits and the sets -/

section
variable {i j d : Nat} {f : Nat → Bool}

theorem merged_self (h : d ≠ i) : merged i j d f i = (f i || f j) := by
  by_cases hj : d = j
  · subst hj
    cases hi : f i <;> simp [merged, Ne.symm h, hi]
  · simp [merged, Ne.symm h, Ne.symm hj]

theorem merged_diff (h : d ≠ i) : merged i j d f d = (f j && !f i) := by
  simp [merged, Function.update_apply, h]

/-- where the difference is the object itself, it becomes the other one -/
theorem merged_self_diff (h : i ≠ j) : merged i j i f i = f j := by
  cases hj : f j <;> simp [merged, Ne.symm h, hj]

theorem merged_all : merged i i i f i = false := by
  simp [merged]

end

/-- one bit of both results -/
theorem union_fits {n : Nat} {y : Bool} (b : Bits) :
    ((a.mem n || y) = (decide (n < a.size) && (a.mem n || b.mem n)) ∧
      (y && !a.mem n) = (decide (n < a.size) && (b.mem n && !a.mem n))) ↔
      (a.mem n = false → y = (decide (n < a.size) && b.mem n)) := by
  cases ha : a.mem n with
  | false => simp
  | true => simp [a.lt_size n ha]

/-- The bits after the loop are those of the sets exactly when the statement fits; `F n k` is bit
`n` of the object `k` before the loop. -/
theorem merged_fits {i j d : Nat} {o : Store} {e : Bits} {F : Nat → Nat → Bool}
    (hroom : d ≠ j → words a.size ≤ o.words)
    (hFi : ∀ n < 32 * words a.size, F n i = a.mem n)
    (hFj : ∀ n < 32 * words a.size, F n j = if d = j then b.mem n else o.bit n)
    (hdj : d = j → e = b) :
    ((∀ n < 32 * words a.size, merged i j d (F n) i =
        (((if d = i then (b.sdiff a).resize a.size else a).union
          (if d = j then (b.sdiff a).resize a.size else b)).resize a.size).mem n) ∧
      (d ≠ i → (∀ n < 32 * words a.size, merged i j d (F n) d = ((b.sdiff a).resize a.size).mem n) ∧
        e.Gap (32 * words a.size) (32 * span a.size))) ↔ DifferenceFits i j d o a b e := by
  have hle := le_words a.size
  have hspan := words_le_span a.size
  unfold DifferenceFits
  by_cases hdi : d = i
  · subst hdi
    rw [if_pos rfl, if_pos rfl, and_iff_left fun hne => absurd rfl hne]
    by_cases hdj' : d = j
    · -- one object alone becomes empty
      subst hdj'
      have hab : ∀ n < 32 * words a.size, b.mem n = a.mem n := by
        intro n hn
        rw [← hFi n hn, hFj n hn, if_pos rfl]
      refine iff_of_true (fun n hn => ?_) (Or.inl rfl)
      simp [merged_all, mem_union_resize, mem_sdiff_resize, hab n hn]
    · rw [or_iff_right hdj', if_neg hdj', and_iff_right (hroom hdj')]
      refine forall₂_congr fun n hn => ?_
      rw [merged_self_diff hdj', hFj n hn, if_neg hdj', mem_union_resize, mem_sdiff_resize]
      cases a.mem n <;> cases b.mem n <;> simp
  · have hunion : ∀ n, ((a.union (if d = j then (b.sdiff a).resize a.size else b)).resize
        a.size).mem n = (decide (n < a.size) && (a.mem n || b.mem n)) := by
      intro n
      rw [mem_union_resize]
      split_ifs
      · rw [mem_sdiff_resize]
        cases a.mem n <;> cases decide (n < a.size) <;> simp
      · rfl
    have hbits : (∀ n < 32 * words a.size, merged i j d (F n) i =
          ((a.union (if d = j then (b.sdiff a).resize a.size else b)).resize a.size).mem n) ∧
        (∀ n < 32 * words a.size, merged i j d (F n) d = ((b.sdiff a).resize a.size).mem n) ↔
        ∀ n < 32 * words a.size, a.mem n = false → F n j = (decide (n < a.size) && b.mem n) := by
      rw [← forall₂_and]
      refine forall₂_congr fun n hn => ?_
      rw [merged_self hdi, merged_diff hdi, hFi n hn, hunion, mem_sdiff_resize]
      exact union_fits b
    rw [if_neg hdi, if_neg hdi, imp_iff_right hdi, ← and_assoc, hbits]
    by_cases hdj' : d = j
    · -- what `resize` has left of the other object stands in it and in the difference
      rw [if_pos hdj', hdj hdj']
      constructor
      · rintro ⟨hall, hgap⟩ n hn hge
        by_cases hin : n < 32 * words a.size
        · have hy := hall n hin (a.mem_of_le hge)
          rw [hFj n hin, if_pos hdj', decide_eq_false (not_lt.mpr hge)] at hy
          exact hy
        · exact hgap n hn (not_lt.mp hin)
      · refine fun hgap => ⟨fun n hn _ => ?_, fun n hn hge => hgap n hn (hle.trans hge)⟩
        rw [hFj n hn, if_pos hdj']
        by_cases hlt : n < a.size
        · rw [decide_eq_true hlt, Bool.true_and]
        · rw [decide_eq_false hlt, hgap n (by omega) (not_lt.mp hlt), Bool.false_and]
    · rw [if_neg hdj', and_iff_right (hroom hdj')]
      refine and_congr_left fun _ => forall₂_congr fun n hn => ?_
      rw [hFj n hn, if_neg hdj']

/-- two entries replaced: what holds of all entries -/
theorem forall_set_set {bs : List Bits} {i d : Nat} (hi : i < bs.length) (hd : d < bs.length)
    {U D : Bits} {P : Nat → Bits → Prop}
    (hP : ∀ k c, k ≠ i → k ≠ d → bs[k]? = some c → P k c) :
    (∀ k c, ((bs.set d D).set i U)[k]? = some c → P k c) ↔ P i U ∧ (d ≠ i → P d D) := by
  have hlen : i < (bs.set d D).length := by simpa using hi
  constructor
  · refine fun hall => ⟨hall i U (List.getElem?_set_self hlen), fun hne => hall d D ?_⟩
    rw [List.getElem?_set_ne (Ne.symm hne), List.getElem?_set_self hd]
  · rintro ⟨hU, hD⟩ k c hc
    by_cases hki : k = i
    · subst hki
      rw [List.getElem?_set_self hlen] at hc
      exact Option.some.inj hc ▸ hU
    · rw [List.getElem?_set_ne (Ne.symm hki)] at hc
      by_cases hkd : k = d
      · subst hkd
        rw [List.getElem?_set_self hd] at hc
        exact Option.some.inj hc ▸ hD hki
      · rw [List.getElem?_set_ne (Ne.symm hkd)] at hc
        exact hP k c hki hkd hc

/-- two objects changed: what remains to be shown of their bits -/
theorem represents_set_set_iff {us vs' : List Bitvector} {bs : List Bits} {i d : Nat} {U D : Bits}
    (hsized : List.Forall₂ Sized us (bs.set d D)) (hshape : shape vs' = shape us)
    (ha : bs[i]? = some a) (hd : d < bs.length) (hU : U.size = a.size) (hD : D.size = a.size)
    (hbits : ∀ k c, k ≠ i → k ≠ d → bs[k]? = some c →
      ∀ n < 32 * span c.size, bit (wordsOf vs' k) n = c.mem n) :
    List.Forall₂ Represents vs' ((bs.set d D).set i U) ↔
      (∀ n < 32 * span a.size, bit (wordsOf vs' i) n = U.mem n) ∧
      (d ≠ i → ∀ n < 32 * span a.size, bit (wordsOf vs' d) n = D.mem n) := by
  have hi := (List.getElem?_eq_some_iff.mp ha).1
  have hget := getElem?_set_some D hd ha
  have hsize : ((bs.set d D).set i U).map (·.size) = (bs.set d D).map (·.size) := by
    rw [List.map_set, hU]
    refine set_self ?_
    rw [List.getElem?_map, hget, Option.map_some]
    split_ifs
    · rw [hD]
    · rfl
  rw [forall₂_represents_iff (Sized.of_shape hsized hshape hsize), forall_set_set hi hd hbits,
    hU, hD]

section
variable {vs us : List Bitvector} {bs : List Bits} {i j d : Nat} {o : Bitvector} {e : Bits}

theorem Resized.bits_other (hr : Resized vs us bs d a e) (h : List.Forall₂ Represents vs bs)
    {k : Nat} {c : Bits} (hc : bs[k]? = some c) (hk : k ≠ d) :
    ∀ n < 32 * span c.size, bit (wordsOf us k) n = c.mem n := by
  intro n hn
  rw [hr.other k hk]
  exact (forall₂_represents_iff (h.imp fun _ _ hr => ⟨hr.max, hr.room⟩)).mp h k c hc n hn

theorem Resized.bits_self (hr : Resized vs us bs d a e) (h : List.Forall₂ Represents vs bs)
    (ha : bs[i]? = some a) (he : bs[d]? = some e) :
    ∀ n < 32 * span a.size, bit (wordsOf us i) n = a.mem n := by
  intro n hn
  by_cases hdi : i = d
  · subst hdi
    rw [hr.bits n hn, Option.some.inj (he.symm.trans ha)]
  · exact hr.bits_other h ha hdi n hn

/-- the other object, which the difference may be -/
theorem Resized.bits_right (hr : Resized vs us bs d a e) (ho : vs[j]? = some o)
    (hdj : d = j → e = b) : ∀ n < 32 * span a.size,
      bit (wordsOf us j) n = if d = j then b.mem n else (store o).bit n := by
  intro n hn
  split_ifs with h
  · rw [← h, hr.bits n hn, hdj h]
  · rw [hr.other j (Ne.symm h), wordsOf_eq ho]
    rfl

theorem Resized.room_right (hr : Resized vs us bs d a e) (ho : vs[j]? = some o) (hdj : d ≠ j) :
    (wordsOf us j).length = (store o).words := by
  rw [hr.other j (Ne.symm hdj), wordsOf_eq ho]
  rfl

theorem Resized.room_self (hr : Resized vs us bs d a e) (ha : bs[i]? = some a)
    (he : bs[d]? = some e) : span a.size ≤ (wordsOf us i).length := by
  have hd := (List.getElem?_eq_some_iff.mp he).1
  have hlen := Sized.length_wordsOf (hr.sized a rfl) (getElem?_set_some a hd ha)
  rwa [ite_self] at hlen

theorem Resized.room_diff (hr : Resized vs us bs d a e) (he : bs[d]? = some e) :
    span a.size ≤ (wordsOf us d).length :=
  Sized.length_wordsOf (hr.sized a rfl)
    (List.getElem?_set_self (List.getElem?_eq_some_iff.mp he).1)

/-- bits that the loop has changed below `lo` only -/
theorem bits_iff_below {f g F : Nat → Bool} {lo hi : Nat} {c : Bits} (hle : c.size ≤ lo)
    (hlo : lo ≤ hi) (hf : ∀ n, f n = if n < lo then F n else g n) :
    (∀ n < hi, f n = c.mem n) ↔
      (∀ n < lo, F n = c.mem n) ∧ ∀ n < hi, lo ≤ n → g n = false := by
  constructor
  · refine fun hall => ⟨fun n hn => ?_, fun n hn hge => ?_⟩
    · rw [← hall n (hn.trans_le hlo), hf, if_pos hn]
    · rw [← c.mem_of_le (hle.trans hge), ← hall n hn, hf, if_neg (not_lt.mpr hge)]
  · rintro ⟨hlow, hhigh⟩ n hn
    rw [hf]
    split_ifs with hin
    · exact hlow n hin
    · rw [hhigh n hn (not_lt.mp hin), c.mem_of_le (hle.trans (not_lt.mp hin))]

/-- where the other object is too short, the loop leaves its array -/
theorem Resized.too_short (hr : Resized vs us bs d a e) (ha : bs[i]? = some a)
    (he : bs[d]? = some e) (ho : vs[j]? = some o)
    (hroom : ¬ words a.size ≤ (wordsOf us j).length) :
    orWithDifferenceLoop i j d (words a.size) 0 us = none ∧
      ¬ DifferenceFits i j d (store o) a b e := by
  have hspan := words_le_span a.size
  have hleni := hr.room_self ha he
  have hlend := hr.room_diff he
  have hdj : d ≠ j := fun h => hroom (h ▸ hspan.trans hlend)
  have hij : i ≠ j := fun h => hroom (h ▸ hspan.trans hleni)
  refine ⟨Option.eq_none_iff_forall_not_mem.mpr fun vs' hvs' => ?_, fun hfits => ?_⟩
  · obtain ⟨r, hrounds⟩ := Nat.exists_eq_succ_of_ne_zero (n := words a.size) (by omega)
    rw [hrounds] at hvs'
    have hread := orWithDifferenceLoop_room hvs' (by omega) (by omega)
    omega
  · rw [hr.room_right ho hdj] at hroom
    unfold DifferenceFits at hfits
    split_ifs at hfits
    · exact hroom (hfits.resolve_left hij).1
    · exact hroom hfits.1

/-- **`or_with_difference` is both assignments on sets exactly when it fits**, whichever of its
objects are one. -/
theorem orWithDifference_iff {bs' : List Bits} (h : List.Forall₂ Represents vs bs)
    (ha : bs[i]? = some a) (hb : bs[j]? = some b) (he : bs[d]? = some e) (ho : vs[j]? = some o)
    (hs : differenceThenUnion i j d bs = some bs') :
    (∃ vs', orWithDifference i j d vs = some vs' ∧ List.Forall₂ Represents vs' bs') ↔
      DifferenceFits i j d (store o) a b e := by
  obtain ⟨us, hloop, hr⟩ := orWithDifference_resized (j := j) h ha he
  have hd := (List.getElem?_eq_some_iff.mp he).1
  have hle := le_words a.size
  have hspan := words_le_span a.size
  have hleni := hr.room_self ha he
  have hlend := hr.room_diff he
  have hFi := hr.bits_self h ha he
  have hdj : d = j → e = b := fun hdj => Option.some.inj (he.symm.trans (hdj ▸ hb))
  have hFj := hr.bits_right ho hdj
  rw [hloop]
  by_cases hroom : words a.size ≤ (wordsOf us j).length
  · obtain ⟨vs', hvs', hshape, hbits'⟩ := orWithDifferenceLoop_eq i j d (words a.size) (i := 0)
      (show _ ≤ (wordsOf us i).length by omega) (by omega) (by omega)
    rw [differenceThenUnion_eq ha hb he] at hs
    cases hs
    have hround : ∀ k n, bit (wordsOf vs' k) n = if n < 32 * words a.size then
        merged i j d (fun k => bit (wordsOf us k) n) k else bit (wordsOf us k) n := by
      intro k n
      rw [hbits']
      simp
    have hrest : ∀ k c, k ≠ i → k ≠ d → bs[k]? = some c →
        ∀ n < 32 * span c.size, bit (wordsOf vs' k) n = c.mem n := by
      intro k c hki hkd hc n hn
      have hsame : merged i j d (fun k => bit (wordsOf us k) n) k = bit (wordsOf us k) n := by
        simp [merged, hki, hkd]
      rw [hround, hsame, ite_self, hr.bits_other h hc hkd n hn]
    have hcut : ∀ k (c : Bits), c.size = a.size →
        ((∀ n < 32 * span a.size, bit (wordsOf vs' k) n = c.mem n) ↔
          (∀ n < 32 * words a.size, merged i j d (fun k => bit (wordsOf us k) n) k = c.mem n) ∧
          ∀ n < 32 * span a.size, 32 * words a.size ≤ n → bit (wordsOf us k) n = false) :=
      fun k c hc => bits_iff_below (hc ▸ hle) (by omega) (hround k)
    have habove : ∀ n < 32 * span a.size, 32 * words a.size ≤ n →
        bit (wordsOf us i) n = false := by
      intro n hn hge
      rw [hFi n hn, a.mem_of_le (hle.trans hge)]
    have hgap : (∀ n < 32 * span a.size, 32 * words a.size ≤ n → bit (wordsOf us d) n = false) ↔
        e.Gap (32 * words a.size) (32 * span a.size) :=
      forall₂_congr fun n hn => by rw [hr.bits n hn]
    simp only [hvs', Option.some.injEq, exists_eq_left']
    refine (represents_set_set_iff (hr.sized _ ?_) hshape ha hd ?_ ?_ hrest).trans ?_
    · rfl
    · rfl
    · rfl
    refine Iff.trans ?_ (merged_fits (F := fun n k => bit (wordsOf us k) n)
      (fun hdj' => hr.room_right ho hdj' ▸ hroom) (fun n hn => hFi n (by omega))
      (fun n hn => hFj n (by omega)) hdj)
    refine and_congr ((hcut i _ ?_).trans (and_iff_left habove)) (imp_congr_right fun _ => ?_)
    · rfl
    · rw [hcut d ((b.sdiff a).resize a.size) rfl, hgap]
  · obtain ⟨hnone, hfits⟩ := hr.too_short (b := b) ha he ho hroom
    refine iff_of_false ?_ hfits
    rintro ⟨vs', hvs', _⟩
    rw [hnone] at hvs'
    cases hvs'

end

end

end Bitvector
end BA
