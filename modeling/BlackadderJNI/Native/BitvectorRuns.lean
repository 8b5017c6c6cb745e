import BlackadderJNI.Lib.Run
import BlackadderJNI.Native.BitvectorLoops
import BlackadderJNI.Native.BitvectorQueries

/-!
# Programs over `Bitvector`

* `Op`, `step`, `spec`   a program over objects, and the same program over sets; `spec` has no step
                         where there is no object of a number;
* `Fits`                 when a statement stays in its arrays and in the numbers of an `int`, and
                         leaves its objects the sets;
* `computes_sets`        a program whose statements all fit, even where every object has no more
                         words than its size needs, is run by the objects, which then answer every
                         query as the sets do;
* `sets_iff_fits`        the objects do a program and are the sets at every moment exactly when all
                         its statements fit.
-/

namespace BA
open BitWords Run

namespace Bitvector

section
variable {v o : Bitvector} {b b' : Bits}

/-! ## programs -/

/-- the argument is an `int` -/
def int (n : Nat) (r : Option Bitvector) : Option Bitvector := if n ≤ intMax then r else none

/-- the constructors; the memory is what `new` and the inline words held before -/
inductive Make where
  | new
  | ofSize (n : Nat)
  | ofBit (bit : Bool)
  | ofSizeBit (n : Nat) (b : Bool)
  | ofString (memory : Nat → Word) (garbage : Word × Word) (x : List Char)

def Make.apply : Make → Option Bitvector
  | .new => some Bitvector.new
  | .ofSize n => int n (Bitvector.ofSize n)
  | .ofBit bit => some (Bitvector.ofBit bit)
  | .ofSizeBit n b => int n (Bitvector.ofSizeBit n b)
  | .ofString memory garbage x => Bitvector.ofString memory garbage x

def Make.onBits : Make → Bits
  | .new => Bits.full 0 false
  | .ofSize n => Bits.full n false
  | .ofBit bit => Bits.full 1 bit
  | .ofSizeBit n b => Bits.full n b
  | .ofString _ _ x => ofChars x

/-- a text has the words of its size, and `memset` or the memory has cleared them above it -/
def Make.Fits : Make → Prop
  | .new => True
  | .ofSize n => n ≤ intMax
  | .ofBit _ => True
  | .ofSizeBit n _ => n ≤ intMax
  | .ofString memory _ x => x.length ≤ intMax ∧ span x.length ≤ x.length ∧
    ∀ i < 32 * span x.length, x.length ≤ i → bit (fresh memory x.length) i = false

instance : ∀ f : Make, Decidable f.Fits
  | .new => isTrue trivial
  | .ofSize n => inferInstanceAs (Decidable (n ≤ intMax))
  | .ofBit _ => isTrue trivial
  | .ofSizeBit n _ => inferInstanceAs (Decidable (n ≤ intMax))
  | .ofString memory _ x => inferInstanceAs (Decidable (x.length ≤ intMax ∧
    span x.length ≤ x.length ∧
    ∀ i < 32 * span x.length, x.length ≤ i → bit (fresh memory x.length) i = false))

/-- the changes of one object -/
inductive Unary where
  | resize (n : Nat)
  | assign (n : Nat) (value : Bool)
  | clear
  | negate
  | modifyBit (op : Bit) (i : Nat) (x : Bool)
  | forceBit (op : Bit) (i : Nat) (x : Bool)

def Unary.apply (v : Bitvector) : Unary → Option Bitvector
  | .resize n => int n (Bitvector.resize n v)
  | .assign n value => int n (Bitvector.assign n value v)
  | .clear => Bitvector.clear v
  | .negate => Bitvector.negate v
  | .modifyBit op i x => int i (Bitvector.modifyBit op i x v)
  | .forceBit op i x => int (i + 1) (Bitvector.forceBit op i x v)

def Unary.onBits (b : Bits) : Unary → Bits
  | .resize n => b.resize n
  | .assign n value => Bits.full n value
  | .clear => Bits.full b.size false
  | .negate => b.compl
  | .modifyBit op i x => b.update i fun old => op.onBool x old
  | .forceBit op i x => (b.resize (Nat.max b.size (i + 1))).update i fun old => op.onBool x old

/-- `resize` and `assign` leave no member in words that they do not write to; `operator[]` finds its
word, and sets no bit above the size in the words that the vector has in any case. -/
def Unary.Fits (b : Bits) (v : Store) : Unary → Prop
  | .resize n => n ≤ intMax ∧ b.Gap n (32 * span n)
  | .assign n _ => n ≤ intMax ∧ (n ≤ 32 → b.Gap 32 64)
  | .clear => True
  | .negate => True
  | .modifyBit op i x => i ≤ intMax ∧ i / 32 < v.words ∧
    (i < b.size ∨ 32 * span b.size ≤ i ∨ op.onBool x false = false)
  | .forceBit _ i _ => i + 1 ≤ intMax

instance (b : Bits) (v : Store) : ∀ f : Unary, Decidable (f.Fits b v)
  | .resize n => inferInstanceAs (Decidable (n ≤ intMax ∧ b.Gap n (32 * span n)))
  | .assign n _ => inferInstanceAs (Decidable (n ≤ intMax ∧ (n ≤ 32 → b.Gap 32 64)))
  | .clear => isTrue trivial
  | .negate => isTrue trivial
  | .modifyBit op i x => inferInstanceAs (Decidable (i ≤ intMax ∧ i / 32 < v.words ∧
    (i < b.size ∨ 32 * span b.size ≤ i ∨ op.onBool x false = false)))
  | .forceBit _ i _ => inferInstanceAs (Decidable (i + 1 ≤ intMax))

/-- the operators `op=` -/
inductive Binary where
  | and
  | or
  | xor
  | sub

def Binary.apply (o v : Bitvector) : Binary → Option Bitvector
  | .and => andAssign o v
  | .or => orAssign o v
  | .xor => xorAssign o v
  | .sub => subAssign o v

/-- the operators `&`, `|`, `^`, `-` -/
def Binary.operator (v o : Bitvector) (f : Binary) : Option Bitvector :=
  (copy v).bind fun m => f.apply o m

def Binary.onBits (a b : Bits) : Binary → Bits
  | .and => a.inter b
  | .or => a.union b
  | .xor => a.symmDiff b
  | .sub => a.sdiff b

/-- The right side has the words that the loop goes over, and in them the bits of its set where
these matter; `^=` finds nothing above the size in the last word, and `-=`, whose right side is a
copy, has nothing to keep above the size of it. -/
def Binary.Fits (a b : Bits) (o : Store) : Binary → Prop
  | .and => words a.size ≤ o.words ∧ ∀ i < a.size, a.mem i = true → o.bit i = b.mem i
  | .or => words (Nat.max a.size b.size) ≤ o.words ∧
    ∀ i < 32 * words (Nat.max a.size b.size), a.mem i = false → o.bit i = b.mem i
  | .xor => words a.size ≤ o.words ∧
    ∀ i < 32 * words a.size, o.bit i = (decide (i < a.size) && b.mem i)
  | .sub => words a.size ≤ span b.size ∧ a.Gap b.size a.size

instance (a b : Bits) (o : Store) : ∀ f : Binary, Decidable (f.Fits a b o)
  | .and => inferInstanceAs (Decidable (words a.size ≤ o.words ∧
    ∀ i < a.size, a.mem i = true → o.bit i = b.mem i))
  | .or => inferInstanceAs (Decidable (words (Nat.max a.size b.size) ≤ o.words ∧
    ∀ i < 32 * words (Nat.max a.size b.size), a.mem i = false → o.bit i = b.mem i))
  | .xor => inferInstanceAs (Decidable (words a.size ≤ o.words ∧
    ∀ i < 32 * words a.size, o.bit i = (decide (i < a.size) && b.mem i)))
  | .sub => inferInstanceAs (Decidable (words a.size ≤ span b.size ∧ a.Gap b.size a.size))

/-- Nothing is moved to above the size, and nothing twice where an object is moved onto itself. -/
def OffsetFits (i j offset : Nat) (a b : Bits) (v : Store) : Prop :=
  offset ≤ intMax ∧ offset / 32 < v.words ∧
    b.Gap (a.size - offset) (32 * Nat.min (span a.size) (offsetEnd a.size offset) - offset) ∧
    (i = j → NoEcho a offset)

instance (i j offset : Nat) (a b : Bits) (v : Store) : Decidable (OffsetFits i j offset a b v) :=
  inferInstanceAs (Decidable (_ ∧ _ ∧ _ ∧ _))

/-- one statement of a program; the objects have numbers in the order of their construction -/
inductive Op where
  | make (f : Make)
  | copy (i : Nat)
  | compl (i : Nat)
  | operator (f : Binary) (i j : Nat)
  | change (f : Unary) (i : Nat)
  | combine (f : Binary) (i j : Nat)
  | assignFrom (i j : Nat)
  | offsetOr (i j offset : Nat)
  | orWithDifference (i j d : Nat)
  | swap (i j : Nat)

def step (vs : List Bitvector) : Op → Option (List Bitvector)
  | .make f => do
    let v ← f.apply
    return vs ++ [v]
  | .copy i => do
    let v ← vs[i]?
    let m ← copy v
    return vs ++ [m]
  | .compl i => do
    let v ← vs[i]?
    let m ← compl v
    return vs ++ [m]
  | .operator f i j => do
    let v ← vs[i]?
    let o ← vs[j]?
    let m ← f.operator v o
    return vs ++ [m]
  | .change f i => do
    let v ← vs[i]?
    let v' ← f.apply v
    return vs.set i v'
  | .combine f i j => do
    let v ← vs[i]?
    let o ← vs[j]?
    let v' ← f.apply o v
    return vs.set i v'
  | .assignFrom i j => do
    let v ← vs[i]?
    let o ← vs[j]?
    -- nothing is done where it is the same object
    if i = j then return vs
    else
      let v' ← assignFrom o v
      return vs.set i v'
  | .offsetOr i j offset => do
    let v ← vs[i]?
    let o ← vs[j]?
    let v' ← int offset (offsetOr (if i = j then none else some o) offset v)
    return vs.set i v'
  | .orWithDifference i j d => do
    let _ ← vs[j]?
    orWithDifference i j d vs
  | .swap i j => do
    let v ← vs[i]?
    let x ← vs[j]?
    return (vs.set i (swap v x).1).set j (swap v x).2

/-- the same program over sets -/
def spec (bs : List Bits) : Op → Option (List Bits)
  | .make f => some (bs ++ [f.onBits])
  | .copy i => do
    let b ← bs[i]?
    return bs ++ [b]
  | .compl i => do
    let b ← bs[i]?
    return bs ++ [b.compl]
  | .operator f i j => do
    let a ← bs[i]?
    let b ← bs[j]?
    return bs ++ [f.onBits a b]
  | .change f i => do
    let b ← bs[i]?
    return bs.set i (f.onBits b)
  | .combine f i j => do
    let a ← bs[i]?
    let b ← bs[j]?
    return bs.set i (f.onBits a b)
  | .assignFrom i j => do
    let _ ← bs[i]?
    let b ← bs[j]?
    return bs.set i b
  | .offsetOr i j offset => do
    let a ← bs[i]?
    let b ← bs[j]?
    return bs.set i (a.shiftUnion b offset)
  | .orWithDifference i j d => differenceThenUnion i j d bs
  | .swap i j => do
    let a ← bs[i]?
    let b ← bs[j]?
    return (bs.set i b).set j a

/-- The statement stays in its arrays and in the numbers of an `int`, and no object is left a bit
that its set has not; told by what there is of the objects, and by the sets. -/
def Fits (ss : List Store) (bs : List Bits) : Op → Prop
  | .make f => f.Fits
  | .operator f i j => ∀ a ∈ bs[i]?, ∀ b ∈ bs[j]?, ∀ o ∈ ss[j]?, f.Fits a b o
  | .change f i => ∀ b ∈ bs[i]?, ∀ v ∈ ss[i]?, f.Fits b v
  | .combine f i j => ∀ a ∈ bs[i]?, ∀ b ∈ bs[j]?, ∀ o ∈ ss[j]?, f.Fits a b o
  | .offsetOr i j offset => ∀ a ∈ bs[i]?, ∀ b ∈ bs[j]?, ∀ v ∈ ss[i]?, OffsetFits i j offset a b v
  | .orWithDifference i j d => ∀ a ∈ bs[i]?, ∀ b ∈ bs[j]?, ∀ e ∈ bs[d]?, ∀ o ∈ ss[j]?,
    DifferenceFits i j d o a b e
  | _ => True

instance (ss : List Store) (bs : List Bits) : ∀ op : Op, Decidable (Fits ss bs op)
  | .make f => inferInstanceAs (Decidable f.Fits)
  | .operator f i j => inferInstanceAs (Decidable (∀ a ∈ bs[i]?, ∀ b ∈ bs[j]?, ∀ o ∈ ss[j]?,
    f.Fits a b o))
  | .change f i => inferInstanceAs (Decidable (∀ b ∈ bs[i]?, ∀ v ∈ ss[i]?, f.Fits b v))
  | .combine f i j => inferInstanceAs (Decidable (∀ a ∈ bs[i]?, ∀ b ∈ bs[j]?, ∀ o ∈ ss[j]?,
    f.Fits a b o))
  | .offsetOr i j offset => inferInstanceAs (Decidable (∀ a ∈ bs[i]?, ∀ b ∈ bs[j]?, ∀ v ∈ ss[i]?,
    OffsetFits i j offset a b v))
  | .orWithDifference i j d => inferInstanceAs (Decidable (∀ a ∈ bs[i]?, ∀ b ∈ bs[j]?, ∀ e ∈ bs[d]?,
    ∀ o ∈ ss[j]?, DifferenceFits i j d o a b e))
  | .copy _ => isTrue trivial
  | .compl _ => isTrue trivial
  | .assignFrom _ _ => isTrue trivial
  | .swap _ _ => isTrue trivial

/-! ### one statement -/

theorem full_resize (m n : Nat) : (Bits.full m false).resize n = Bits.full n false :=
  Bits.ext_iff'.mpr ⟨rfl, fun i => by simp [Bits.resize, Bits.full]⟩

theorem full_mem_false (n i : Nat) : (Bits.full n false).mem i = false := by
  simp [Bits.full]

theorem new_represents : Represents new (Bits.full 0 false) where
  max := rfl
  room := by decide
  bits i _ := by
    rw [full_mem_false]
    exact bit_zeros 2 i

/-- the constructor of a size resizes the empty vector -/
theorem ofSize_eq (n : Int) : ofSize n = resize n new := by
  unfold ofSize resize
  by_cases hbig : n - 1 > maxInlineBit
  · simp only [if_pos hbig]
    by_cases hfit : (n - 1) / 32 + 1 ≤ 2
    · rw [show resizeToMax (n - 1) false _ = _ from if_pos hfit,
        show resizeToMax (n - 1) true new = _ from if_pos hfit]
      rfl
    · rw [show resizeToMax (n - 1) false _ = _ from if_neg hfit,
        show resizeToMax (n - 1) true new = _ from if_neg hfit]
      rfl
  · simp only [if_neg hbig]
    rfl

theorem ofSize_yields (n : Nat) : Yields (ofSize n) (Bits.full n false) := by
  rw [ofSize_eq, ← full_resize 0 n]
  exact (resize_yields_iff new_represents n).mpr fun i _ _ => full_mem_false 0 i

theorem ofBit_represents (bit : Bool) : Represents (ofBit bit) (Bits.full 1 bit) := by
  obtain ⟨v, hv, hr⟩ := ofSize_yields 1
  cases hv
  obtain ⟨v', hv', hr'⟩ := (modifyBit_yields_iff hr .assign 0 bit).mpr
    ⟨by decide, Or.inl Nat.one_pos⟩
  have he : v' = ofBit bit := by
    cases bit <;> cases hv' <;> rfl
  have hset : (Bits.full 1 false).update 0 (fun old => Bit.onBool bit old .assign) =
      Bits.full 1 bit := by
    refine Bits.ext_iff'.mpr ⟨rfl, fun i => ?_⟩
    by_cases hi : i = 0 <;> simp [Bits.update, Bits.full, Bit.onBool, hi]
  rw [← he, ← hset]
  exact hr'

theorem ofSizeBit_yields (n : Nat) (b : Bool) : Yields (ofSizeBit n b) (Bits.full n b) := by
  obtain ⟨v, hv, hr⟩ := ofSize_yields n
  rw [ofSizeBit, hv]
  cases b with
  | false => exact yields_some.mpr hr
  | true => exact (assign_yields_iff hr n true).mpr fun _ i _ _ => full_mem_false n i

theorem yields_int {n : Nat} {r : Option Bitvector} :
    Yields (int n r) b ↔ n ≤ intMax ∧ Yields r b := by
  unfold int
  split_ifs with h
  · exact (and_iff_right h).symm
  · exact iff_of_false not_yields_none fun hand => h hand.1

theorem Make.yields_iff (f : Make) : Yields f.apply f.onBits ↔ f.Fits := by
  cases f with
  | new => exact iff_of_true (yields_some.mpr new_represents) trivial
  | ofSize n => exact yields_int.trans (and_iff_left (ofSize_yields n))
  | ofBit bit => exact iff_of_true (yields_some.mpr (ofBit_represents bit)) trivial
  | ofSizeBit n b => exact yields_int.trans (and_iff_left (ofSizeBit_yields n b))
  | ofString memory garbage x =>
    by_cases hint : x.length ≤ intMax
    · exact (ofString_yields_iff memory garbage hint).trans (and_iff_right hint).symm
    · have hnone : (Make.ofString memory garbage x).apply = none := if_neg hint
      rw [hnone]
      exact iff_of_false not_yields_none fun hfits => hint hfits.1

theorem Unary.yields_iff (h : Represents v b) (f : Unary) :
    Yields (f.apply v) (f.onBits b) ↔ f.Fits b (store v) := by
  cases f with
  | resize n => exact yields_int.trans (and_congr_right fun _ => resize_yields_iff h n)
  | assign n value => exact yields_int.trans (and_congr_right fun _ => assign_yields_iff h n value)
  | clear => exact iff_of_true (clear_yields h) trivial
  | negate =>
    obtain ⟨v', hv', hr, _⟩ := negate_eq h
    exact iff_of_true ⟨v', hv', hr⟩ trivial
  | modifyBit op i x =>
    exact yields_int.trans (and_congr_right fun _ => modifyBit_yields_iff h op i x)
  | forceBit op i x => exact yields_int.trans (and_iff_left (forceBit_yields h op i x))

theorem Binary.yields_iff (h : Represents v b) (ho : Represents o b') (f : Binary) :
    Yields (f.apply o v) (f.onBits b b') ↔ f.Fits b b' (store o) := by
  cases f with
  | and => exact andAssign_yields_iff h b'
  | or => exact orAssign_yields_iff h ho.max
  | xor => exact xorAssign_yields_iff h b'
  | sub => exact subAssign_yields_iff h ho

theorem Binary.operator_yields_iff (h : Represents v b) (ho : Represents o b') (f : Binary) :
    Yields (f.operator v o) (f.onBits b b') ↔ f.Fits b b' (store o) := by
  obtain ⟨m, hm, hr, _⟩ := copy_eq h
  rw [Binary.operator, hm]
  exact f.yields_iff hr ho

/-- `offset_or` of another object, or of the object itself -/
theorem offset_yields_iff {a : Bits} (h : Represents v a) (ho : Represents o b) {i j : Nat}
    (hij : i = j → a = b) (offset : Nat) :
    Yields (int offset (offsetOr (if i = j then none else some o) offset v))
      (a.shiftUnion b offset) ↔ OffsetFits i j offset a b (store v) := by
  rw [yields_int, OffsetFits]
  refine and_congr_right fun _ => ?_
  by_cases he : i = j
  · obtain rfl := hij he
    rw [if_pos he, imp_iff_right he, ← and_assoc]
    exact offsetOr_self_yields_iff h offset
  · rw [if_neg he, and_iff_left fun hij => absurd hij he]
    exact offsetOr_yields_iff h ho offset

/-! ### a statement of a program -/

theorem snoc_yields_iff {vs : List Bitvector} {bs : List Bits} (h : List.Forall₂ Represents vs bs)
    {r : Option Bitvector} : (∃ vs', (r.bind fun v => some (vs ++ [v])) = some vs' ∧
      List.Forall₂ Represents vs' (bs ++ [b])) ↔ Yields r b := by
  constructor
  · rintro ⟨vs', hvs', hR⟩
    obtain ⟨v, hv, hvs'⟩ := Option.bind_eq_some_iff.mp hvs'
    cases hvs'
    exact ⟨v, hv, (Matching.snoc_iff h).mp hR⟩
  · rintro ⟨v, rfl, hr⟩
    exact ⟨vs ++ [v], rfl, Matching.snoc h hr⟩

theorem set_yields_iff {vs : List Bitvector} {bs : List Bits} (h : List.Forall₂ Represents vs bs)
    {i : Nat} (hi : i < bs.length) {r : Option Bitvector} :
    (∃ vs', (r.bind fun v => some (vs.set i v)) = some vs' ∧
      List.Forall₂ Represents vs' (bs.set i b)) ↔ Yields r b := by
  constructor
  · rintro ⟨vs', hvs', hR⟩
    obtain ⟨v, hv, hvs'⟩ := Option.bind_eq_some_iff.mp hvs'
    cases hvs'
    exact ⟨v, hv, (Matching.set_iff h hi).mp hR⟩
  · rintro ⟨v, rfl, hr⟩
    exact ⟨vs.set i v, rfl, Matching.set h i hr⟩

/-- **Step.**  Where the objects are the sets, a statement can be done and they are the sets after
it exactly when it fits. -/
theorem step_iff {vs : List Bitvector} {bs bs' : List Bits} {op : Op}
    (h : List.Forall₂ Represents vs bs) (hs : spec bs op = some bs') :
    (∃ vs', step vs op = some vs' ∧ List.Forall₂ Represents vs' bs') ↔
      Fits (vs.map store) bs op := by
  have hget : ∀ {i : Nat} {b : Bits}, bs[i]? = some b →
      ∃ v, vs[i]? = some v ∧ Represents v b ∧ (vs.map store)[i]? = some (store v) := by
    intro i b hb
    obtain ⟨v, hv, hr⟩ := Matching.getElem?_right h hb
    exact ⟨v, hv, hr, by rw [List.getElem?_map, hv, Option.map_some]⟩
  cases op with
  | make f =>
    cases hs
    exact (snoc_yields_iff h).trans f.yields_iff
  | copy i =>
    obtain ⟨b, hb, hs⟩ := Option.bind_eq_some_iff.mp hs
    cases hs
    obtain ⟨v, hv, hr, _⟩ := hget hb
    obtain ⟨m, hm, hrm, _⟩ := copy_eq hr
    exact iff_of_true ⟨vs ++ [m], by simp [step, hv, hm], Matching.snoc h hrm⟩ trivial
  | compl i =>
    obtain ⟨b, hb, hs⟩ := Option.bind_eq_some_iff.mp hs
    cases hs
    obtain ⟨v, hv, hr, _⟩ := hget hb
    obtain ⟨m, hm, hrm, _⟩ := compl_eq hr
    exact iff_of_true ⟨vs ++ [m], by simp [step, hv, hm], Matching.snoc h hrm⟩ trivial
  | operator f i j =>
    obtain ⟨a, ha, hs⟩ := Option.bind_eq_some_iff.mp hs
    obtain ⟨b, hb, hs⟩ := Option.bind_eq_some_iff.mp hs
    cases hs
    obtain ⟨v, hv, hr, _⟩ := hget ha
    obtain ⟨o, ho, hro, hso⟩ := hget hb
    have hstep : step vs (.operator f i j) =
        (f.operator v o).bind fun m => some (vs ++ [m]) := by
      rw [step, hv, ho]
      rfl
    rw [hstep, snoc_yields_iff h, f.operator_yields_iff hr hro]
    simp [Fits, ha, hb, hso]
  | change f i =>
    obtain ⟨b, hb, hs⟩ := Option.bind_eq_some_iff.mp hs
    cases hs
    obtain ⟨v, hv, hr, hsv⟩ := hget hb
    have hstep : step vs (.change f i) = (f.apply v).bind fun v' => some (vs.set i v') := by
      rw [step, hv]
      rfl
    rw [hstep, set_yields_iff h (List.getElem?_eq_some_iff.mp hb).1, f.yields_iff hr]
    simp [Fits, hb, hsv]
  | combine f i j =>
    obtain ⟨a, ha, hs⟩ := Option.bind_eq_some_iff.mp hs
    obtain ⟨b, hb, hs⟩ := Option.bind_eq_some_iff.mp hs
    cases hs
    obtain ⟨v, hv, hr, _⟩ := hget ha
    obtain ⟨o, ho, hro, hso⟩ := hget hb
    have hstep : step vs (.combine f i j) =
        (f.apply o v).bind fun v' => some (vs.set i v') := by
      rw [step, hv, ho]
      rfl
    rw [hstep, set_yields_iff h (List.getElem?_eq_some_iff.mp ha).1, f.yields_iff hr hro]
    simp [Fits, ha, hb, hso]
  | assignFrom i j =>
    obtain ⟨a, ha, hs⟩ := Option.bind_eq_some_iff.mp hs
    obtain ⟨b, hb, hs⟩ := Option.bind_eq_some_iff.mp hs
    cases hs
    obtain ⟨v, hv, hr, _⟩ := hget ha
    obtain ⟨o, ho, hro, _⟩ := hget hb
    refine iff_of_true ?_ trivial
    by_cases hij : i = j
    · subst hij
      obtain ⟨hlt, rfl⟩ := List.getElem?_eq_some_iff.mp hb
      refine ⟨vs, by simp [step, hv], ?_⟩
      rw [List.set_getElem_self]
      exact h
    · obtain ⟨v', hv', hr'⟩ := assignFrom_yields hr hro
      exact ⟨vs.set i v', by simp [step, hv, ho, hij, hv'], Matching.set h i hr'⟩
  | offsetOr i j offset =>
    obtain ⟨a, ha, hs⟩ := Option.bind_eq_some_iff.mp hs
    obtain ⟨b, hb, hs⟩ := Option.bind_eq_some_iff.mp hs
    cases hs
    obtain ⟨v, hv, hr, hsv⟩ := hget ha
    obtain ⟨o, ho, hro, _⟩ := hget hb
    have hstep : step vs (.offsetOr i j offset) = (int offset (offsetOr (if i = j then none
        else some o) offset v)).bind fun v' => some (vs.set i v') := by
      rw [step, hv, ho]
      rfl
    have hij : i = j → a = b := fun hij => Option.some.inj (ha.symm.trans (hij ▸ hb))
    rw [hstep, set_yields_iff h (List.getElem?_eq_some_iff.mp ha).1,
      offset_yields_iff hr hro hij]
    simp [Fits, ha, hb, hsv]
  | orWithDifference i j d =>
    obtain ⟨a, ha, hs'⟩ := Option.bind_eq_some_iff.mp hs
    obtain ⟨b, hb, hs'⟩ := Option.bind_eq_some_iff.mp hs'
    obtain ⟨e, he, _⟩ := Option.bind_eq_some_iff.mp hs'
    obtain ⟨o, ho, _, hso⟩ := hget hb
    have hstep : step vs (.orWithDifference i j d) = orWithDifference i j d vs := by
      rw [step, ho]
      rfl
    rw [hstep, orWithDifference_iff h ha hb he ho hs]
    simp [Fits, ha, hb, he, hso]
  | swap i j =>
    obtain ⟨a, ha, hs⟩ := Option.bind_eq_some_iff.mp hs
    obtain ⟨b, hb, hs⟩ := Option.bind_eq_some_iff.mp hs
    cases hs
    obtain ⟨v, hv, hr, _⟩ := hget ha
    obtain ⟨o, ho, hro, _⟩ := hget hb
    exact iff_of_true ⟨(vs.set i o).set j v, by simp [step, hv, ho, swap],
      Matching.set (Matching.set h i hro) j hr⟩ trivial

/-! ### what there is of the objects -/

theorem Unary.Fits.mono {s t : Store} (ht : t.Covers s) {f : Unary} (h : f.Fits b s) :
    f.Fits b t := by
  cases f with
  | modifyBit op i x => exact ⟨h.1, h.2.1.trans_le ht.1, h.2.2⟩
  | resize n => exact h
  | assign n value => exact h
  | clear => exact h
  | negate => exact h
  | forceBit op i x => exact h

theorem Binary.Fits.mono {s t : Store} (ht : t.Covers s) {f : Binary} (h : f.Fits b b' s) :
    f.Fits b b' t := by
  cases f with
  | and =>
    refine ⟨h.1.trans ht.1, fun i hi hb => ?_⟩
    have hle := le_words b.size
    have hroom := h.1
    rw [ht.2 i (by omega), h.2 i hi hb]
  | or =>
    refine ⟨h.1.trans ht.1, fun i hi hb => ?_⟩
    have hroom := h.1
    rw [ht.2 i (by omega), h.2 i hi hb]
  | xor =>
    refine ⟨h.1.trans ht.1, fun i hi => ?_⟩
    have hroom := h.1
    rw [ht.2 i (by omega), h.2 i hi]
  | sub => exact h

/-- A statement that fits where every object has no more than its set needs fits all objects. -/
theorem Fits.of_least {vs : List Bitvector} {bs : List Bits} {op : Op}
    (h : List.Forall₂ Represents vs bs) (hfits : Fits (bs.map least) bs op) :
    Fits (vs.map store) bs op := by
  have hcovers : ∀ {i : Nat} {t : Store}, t ∈ (vs.map store)[i]? →
      ∃ s ∈ (bs.map least)[i]?, t.Covers s := by
    intro i t ht
    rw [Option.mem_def, List.getElem?_map, Option.map_eq_some_iff] at ht
    obtain ⟨v, hv, rfl⟩ := ht
    obtain ⟨b, hb, hr⟩ := Matching.getElem?_left h hv
    exact ⟨least b, by rw [Option.mem_def, List.getElem?_map, hb, Option.map_some], hr.covers⟩
  cases op with
  | operator f i j =>
    intro a ha b hb o ho
    obtain ⟨s, hs, hc⟩ := hcovers ho
    exact (hfits a ha b hb s hs).mono hc
  | change f i =>
    intro b hb v hv
    obtain ⟨s, hs, hc⟩ := hcovers hv
    exact (hfits b hb s hs).mono hc
  | combine f i j =>
    intro a ha b hb o ho
    obtain ⟨s, hs, hc⟩ := hcovers ho
    exact (hfits a ha b hb s hs).mono hc
  | offsetOr i j offset =>
    intro a ha b hb v hv
    obtain ⟨s, hs, hc⟩ := hcovers hv
    obtain ⟨hint, hin, hrest⟩ := hfits a ha b hb s hs
    exact ⟨hint, hin.trans_le hc.1, hrest⟩
  | orWithDifference i j d =>
    intro a ha b hb e he o ho
    obtain ⟨s, hs, hc⟩ := hcovers ho
    exact (hfits a ha b hb e he s hs).mono hc
  | make f => exact hfits
  | copy i => trivial
  | compl i => trivial
  | assignFrom i j => trivial
  | swap i j => trivial

/-! ## whole programs -/

/-- the queries of one object are those of its set -/
structure Shows (v : Bitvector) (b : Bits) : Prop where
  size : size v = b.size
  get : ∀ i < b.size, get v i = some (b.mem i)
  zero : ∃ r, zero v = some r ∧ (r = true ↔ ∀ i, b.mem i = false)
  toString : toString v = some (digits b.size b.mem)

/-- the queries of two objects are those of their sets -/
structure Compares (v o : Bitvector) (b b' : Bits) : Prop where
  beq : ∃ r, beq v o = some r ∧ (r = true ↔ b = b')
  nonzeroIntersection : ∃ r, nonzeroIntersection v o = some r ∧
    (r = true ↔ ∃ i, b.mem i = true ∧ b'.mem i = true)

theorem Represents.shows (h : Represents v b) : Shows v b where
  size := h.max
  get _ hi := get_represents h hi
  zero := zero_represents h
  toString := toString_represents h

theorem Represents.compares (h : Represents v b) (ho : Represents o b') : Compares v o b b' where
  beq := beq_represents h ho
  nonzeroIntersection := nonzeroIntersection_represents h ho

/-- **A program over `Bitvector` computes with sets of numbers**: where every statement fits, the
objects do it, and answer every query as the sets do. -/
theorem computes_sets {ops : List Op} {bs : List Bits} (h : run spec [] ops = some bs)
    (hfits : Along spec (fun bs op => Fits (bs.map least) bs op) [] ops) :
    ∃ vs, run step [] ops = some vs ∧ List.Forall₂ Shows vs bs ∧
      ∀ p ∈ vs.zip bs, ∀ q ∈ vs.zip bs, Compares p.1 q.1 p.2 q.2 := by
  have hstep : ∀ (bs : List Bits) (vs : List Bitvector) (op : Op) (bs' : List Bits),
      Fits (bs.map least) bs op → List.Forall₂ Represents vs bs → spec bs op = some bs' →
      ∃ vs', step vs op = some vs' ∧ List.Forall₂ Represents vs' bs' :=
    fun bs vs op bs' hfit hR hs => (step_iff hR hs).mpr (hfit.of_least hR)
  obtain ⟨vs, hvs, hR⟩ := run_forward (fun bs vs => List.Forall₂ Represents vs bs) hstep hfits
    List.Forall₂.nil h
  have hzip : ∀ p ∈ vs.zip bs, Represents p.1 p.2 := fun _ hp => (List.forall₂_iff_zip.mp hR).2 hp
  exact ⟨vs, hvs, hR.imp fun _ _ hr => hr.shows,
    fun p hp q hq => (hzip p hp).compares (hzip q hq)⟩

/-- nine bits of a text, moved up past the inline words of a longer vector, which is then moved onto
itself; the difference of two vectors, and of one with itself -/
def movedUp : List Op :=
  [.make (.ofString (fun _ => 0xFFFFFFFF#32) (7, 7) "101100101".toList), .make (.ofSize 70),
    .offsetOr 1 0 61, .combine .or 0 1, .change (.resize 100) 1, .offsetOr 1 1 3, .compl 1,
    .orWithDifference 1 2 0, .swap 0 1, .orWithDifference 2 1 1, .orWithDifference 0 0 0]

theorem computes_sets_movedUp : ∃ bs vs, run spec [] movedUp = some bs ∧
    run step [] movedUp = some vs ∧ List.Forall₂ Shows vs bs ∧
    ∀ p ∈ vs.zip bs, ∀ q ∈ vs.zip bs, Compares p.1 q.1 p.2 q.2 := by
  obtain ⟨bs, hbs⟩ := Option.isSome_iff_exists.mp
    (show (run spec [] movedUp).isSome = true by decide)
  obtain ⟨vs, h⟩ := computes_sets hbs (by decide +kernel)
  exact ⟨bs, vs, hbs, h⟩

/-- **The objects do a program and are the sets at every moment exactly when every statement fits.**
`spec` has a step wherever the objects that a statement names are there. -/
theorem sets_iff_fits {ops : List Op} {bs : List Bits} (h : run spec [] ops = some bs) :
    (∃ vs, run step [] ops = some vs ∧
      ∀ m, Visits (both step spec) ([], []) ops m → List.Forall₂ Represents m.1 m.2) ↔
      Along (both step spec) (fun m op => Fits (m.1.map store) m.2 op) ([], []) ops :=
  run_both_iff (List.Forall₂ Represents) (fun _ _ _ _ hR hs => step_iff hR hs) List.Forall₂.nil h

/-- a bit moved up onto its own object is moved again from the next word -/
def movedAgain : List Op :=
  [.make (.ofSize 70), .change (.modifyBit .assign 31 true) 0, .offsetOr 0 0 1]

/-- ten bits are enough of a right side that has been longer -/
def cutShort : List Op :=
  [.make (.ofSizeBit 70 true), .make (.ofSize 70), .change (.resize 10) 1, .combine .and 0 1]

theorem sets_iff_fits_movedAgain :
    (¬ ∃ vs, run step [] movedAgain = some vs ∧
      ∀ m, Visits (both step spec) ([], []) movedAgain m → List.Forall₂ Represents m.1 m.2) ∧
    ∃ vs, run step [] cutShort = some vs ∧
      ∀ m, Visits (both step spec) ([], []) cutShort m → List.Forall₂ Represents m.1 m.2 := by
  obtain ⟨bs, hbs⟩ := Option.isSome_iff_exists.mp
    (show (run spec [] movedAgain).isSome = true by decide)
  obtain ⟨cs, hcs⟩ := Option.isSome_iff_exists.mp
    (show (run spec [] cutShort).isSome = true by decide)
  rw [sets_iff_fits hbs, sets_iff_fits hcs]
  decide +kernel

end

end Bitvector
end BA
