import BlackadderJNI.Lib.BitWords

/-!
# `Bitvector`

Translation of `bitvector.hpp` and `bitvector.cpp`.  A word that is read or written outside the
array it lies in has no result (`none`).

* `Bitvector`    the fields; `_data` points to the two inline words or to an array of its own;
* `mapWords`, `zipWords`   the loops `for (i = 0; i <= nn; i++)` over the words;
* the constructors, `resize`, `assign`, the operators, `offsetOr`, `swap`;
* `orWithDifference`   on the list of the objects, which may be one another;
* `Bit`          the assignments to a bit;
* `ofString`, `toString`   the texts, with what `memset` leaves of the fresh memory.
-/

namespace BA
open BitWords

abbrev Word := BitVec 32

structure Bitvector where
  max : Int
  f0 : Word
  f1 : Word
  /-- `none` where `_data` is `&_f0` -/
  array : Option (List Word)
  deriving DecidableEq, Repr

namespace Bitvector

def intMax : Nat := 2147483647
def maxInlineBit : Int := 63
def maxInlineWord : Int := 1

/-! ## the words -/

def data (v : Bitvector) : List Word := v.array.getD [v.f0, v.f1]

/-- the words of `_data`, changed in place -/
def withData (v : Bitvector) (d : List Word) : Bitvector :=
  match v.array with
  | none => { v with f0 := d.getD 0 0, f1 := d.getD 1 0 }
  | some _ => { v with array := some d }

def size (v : Bitvector) : Int := v.max + 1

def maxWord (v : Bitvector) : Int := if v.max < 0 then -1 else v.max / 32

/-- the number of rounds of `for (int i = 0; i <= nn; i++)` -/
def rounds (nn : Int) : Nat := (nn + 1).toNat

def mapWords (nn : Int) (f : Word → Word) (v : Bitvector) : Option Bitvector :=
  if rounds nn ≤ v.data.length then some (v.withData (mapFirst (rounds nn) f v.data)) else none

def zipWords (nn : Int) (f : Word → Word → Word) (v o : Bitvector) : Option Bitvector :=
  if rounds nn ≤ v.data.length ∧ rounds nn ≤ o.data.length then
    some (v.withData (zipFirst (rounds nn) f v.data o.data))
  else none

/-- `_data[k] = f(_data[k])` -/
def modifyWord (k : Nat) (f : Word → Word) (v : Bitvector) : Option Bitvector :=
  if h : k < v.data.length then some (v.withData (v.data.set k (f v.data[k]))) else none

/-! ## sizes -/

def resizeToMax (newMax : Int) (validN : Bool) (v : Bitvector) : Option Bitvector :=
  let wantU := newMax / 32 + 1
  let haveU := (if validN then v.maxWord else maxInlineWord) + 1
  let haveU := if haveU < maxInlineWord + 1 then maxInlineWord + 1 else haveU
  if wantU ≤ haveU then some v
  else if haveU.toNat ≤ v.data.length then
    some { v with
      array := some (v.data.take haveU.toNat ++ List.replicate (wantU - haveU).toNat 0) }
  else none

def resize (n : Int) (v : Bitvector) : Option Bitvector := do
  let v ← if n - 1 > maxInlineBit then resizeToMax (n - 1) true v else some v
  return { v with max := n - 1 }

/-- `if (m > _max) resize(m + 1)` -/
def growTo (m : Int) (v : Bitvector) : Option Bitvector :=
  if m > v.max then resize (m + 1) v else some v

def clearLast (v : Bitvector) : Option Bitvector :=
  if v.max < 0 then modifyWord 0 (fun _ => 0) v
  else
    let m := v.max.toNat
    if m % 32 ≠ 31 then
      let mask : Word := (1#32 <<< (m % 32 + 1)) - 1#32
      modifyWord (m / 32) (· &&& mask) v
    else some v

def assign (n : Int) (value : Bool) (v : Bitvector) : Option Bitvector := do
  let v ← resize n v
  let bits : Word := if value then 0xFFFFFFFF#32 else 0#32
  let copy := if n > 32 then v.maxWord else 0
  let v ← mapWords copy (fun _ => bits) v
  if value then clearLast v else return v

/-! ## constructors -/

def new : Bitvector := ⟨-1, 0, 0, none⟩

def ofSize (n : Int) : Option Bitvector :=
  let v : Bitvector := ⟨n - 1, 0, 0, none⟩
  if v.max > maxInlineBit then resizeToMax v.max false v else some v

def ofBit (bit : Bool) : Bitvector := ⟨0, if bit then 1 else 0, 0, none⟩

def ofSizeBit (n : Int) (b : Bool) : Option Bitvector := do
  let v ← ofSize n
  if b then assign n b v else return v

def finishCopyConstructor (o v : Bitvector) : Option Bitvector :=
  let nn := rounds v.maxWord
  if nn ≤ o.data.length then some { v with array := some (o.data.take nn) } else none

def copy (o : Bitvector) : Option Bitvector := do
  let f0 ← o.data[0]?
  let f1 ← o.data[1]?
  let v : Bitvector := ⟨o.max, f0, f1, none⟩
  if v.max > maxInlineBit then finishCopyConstructor o v else return v

/-! ## whole vectors -/

def clear (v : Bitvector) : Option Bitvector := mapWords v.maxWord (fun _ => 0) v

def zero (v : Bitvector) : Option Bool :=
  let nn := rounds v.maxWord
  if nn ≤ v.data.length then some ((v.data.take nn).all (· == 0)) else none

/-- `operator=`, of another object -/
def assignFrom (o v : Bitvector) : Option Bitvector :=
  if o.maxWord ≤ maxInlineWord then
    if 2 ≤ o.data.length ∧ 2 ≤ v.data.length then
      some { v.withData (o.data.take 2 ++ v.data.drop 2) with max := o.max }
    else none
  else
    let nn := rounds o.maxWord
    if nn ≤ o.data.length then some { v with array := some (o.data.take nn), max := o.max }
    else none

/-- `operator==`; `memcmp` of the words -/
def beq (v x : Bitvector) : Option Bool :=
  let n := if v.max ≤ maxInlineBit then 2 else rounds v.maxWord
  if v.max ≠ x.max then some false
  else if n ≤ v.data.length ∧ n ≤ x.data.length then some (v.data.take n == x.data.take n)
  else none

def negate (v : Bitvector) : Option Bitvector := do
  let v ← mapWords v.maxWord (~~~ ·) v
  clearLast v

def andAssign (o v : Bitvector) : Option Bitvector := zipWords v.maxWord (· &&& ·) v o

def orAssign (o v : Bitvector) : Option Bitvector := do
  let v ← growTo o.max v
  zipWords v.maxWord (· ||| ·) v o

def xorAssign (o v : Bitvector) : Option Bitvector := zipWords v.maxWord (· ^^^ ·) v o

/-- `operator~` -/
def compl (v : Bitvector) : Option Bitvector := do
  let m ← copy v
  negate m

def subAssign (o v : Bitvector) : Option Bitvector := do
  let m ← compl o
  andAssign m v

/-- The `while` loop; `word` reads `o_data[o_pos]` as the loop has left it.  The last number of
rounds is the one that `o_pos` allows. -/
def offsetOrLoop (word : Bitvector → Nat → Option Word) (bits1st : Nat) (myMaxWord : Int) :
    Nat → Nat → Nat → Bitvector → Option Bitvector
  | 0, _, _, v => some v
  | rounds + 1, oPos, myPos, v => do
    let val ← word v oPos
    let v ← modifyWord myPos (· ||| val <<< bits1st) v
    if (myPos + 1 : Int) > myMaxWord then return v
    let v ← if bits1st ≠ 0 then modifyWord (myPos + 1) (· ||| val >>> (32 - bits1st)) v else some v
    offsetOrLoop word bits1st myMaxWord rounds (oPos + 1) (myPos + 1) v

/-- `o` is `none` where it is the object itself.  The first word of `o` is read in any case; a
negative offset leaves the array. -/
def offsetOr (o : Option Bitvector) (offset : Nat) (v : Bitvector) : Option Bitvector :=
  let nn := rounds (o.getD v).maxWord
  offsetOrLoop (fun v k => (o.getD v).data[k]?) (offset % 32) v.maxWord (if nn = 0 then 1 else nn) 0
    (offset / 32) v

def nonzeroIntersection (v o : Bitvector) : Option Bool :=
  let nn := if o.maxWord > v.maxWord then v.maxWord else o.maxWord
  if rounds nn ≤ v.data.length ∧ rounds nn ≤ o.data.length then
    some ((List.zipWith (· &&& ·) (v.data.take (rounds nn)) (o.data.take (rounds nn))).any (· != 0))
  else none

/-- each `_data` goes over, or is again the inline words of its object -/
def swap (v x : Bitvector) : Bitvector × Bitvector :=
  (⟨x.max, x.f0, x.f1, x.array⟩, ⟨v.max, v.f0, v.f1, v.array⟩)

/-! ## `or_with_difference`

Its three objects may be one another, so it works on the list of all objects. -/

/-- the words of the object `j` -/
def wordsOf (vs : List Bitvector) (j : Nat) : List Word := (vs[j]?.map data).getD []

/-- `_data[k] = w` in the object `j` -/
def setWordOf (j k : Nat) (w : Word) (vs : List Bitvector) : Option (List Bitvector) := do
  let v ← vs[j]?
  let v' ← modifyWord k (fun _ => w) v
  return vs.set j v'

/-- the rounds of the loop from `i` on; what is read again has been written in between -/
def orWithDifferenceLoop (self o diff : Nat) :
    Nat → Nat → List Bitvector → Option (List Bitvector)
  | 0, _, vs => some vs
  | rounds + 1, i, vs => do
    let x ← (wordsOf vs self)[i]?
    let y ← (wordsOf vs o)[i]?
    let vs ← setWordOf diff i (y &&& ~~~x) vs
    let x ← (wordsOf vs self)[i]?
    let y ← (wordsOf vs o)[i]?
    let vs ← setWordOf self i (x ||| y) vs
    orWithDifferenceLoop self o diff rounds (i + 1) vs

def orWithDifference (self o diff : Nat) (vs : List Bitvector) : Option (List Bitvector) := do
  let v ← vs[self]?
  let x ← vs[diff]?
  let vs ← if x.max ≠ v.max then (resize (v.max + 1) x).map fun x => vs.set diff x else some vs
  orWithDifferenceLoop self o diff (rounds v.maxWord) 0 vs

/-! ## single bits -/

/-- the assignments of `Bitvector::Bit` -/
inductive Bit where
  | assign
  | and
  | or
  | xor
  | sub
  deriving DecidableEq, Repr

def Bit.apply (mask : Word) (x : Bool) (p : Word) : Bit → Word
  | .assign => if x then p ||| mask else p &&& ~~~mask
  | .and => if !x then p &&& ~~~mask else p
  | .or => if x then p ||| mask else p
  | .xor => if x then p ^^^ mask else p
  | .sub => if x then p &&& ~~~mask else p

/-- `operator[]` of a constant object -/
def get (v : Bitvector) (i : Nat) : Option Bool :=
  (v.data[i / 32]?).map fun w => w &&& (1#32 <<< (i % 32)) != 0

/-- `(*this)[i] op x` -/
def modifyBit (op : Bit) (i : Nat) (x : Bool) (v : Bitvector) : Option Bitvector :=
  modifyWord (i / 32) (fun p => op.apply (1#32 <<< (i % 32)) x p) v

/-- `force_bit(i) op x` -/
def forceBit (op : Bit) (i : Nat) (x : Bool) (v : Bitvector) : Option Bitvector := do
  let v ← growTo i v
  modifyBit op i x v

/-! ## texts -/

/-- the word `k` of fresh memory, after `memset(_data, 0, n)` -/
def memset (fresh : Nat → Word) (n k : Nat) : Word :=
  let zeroed := 8 * min 4 (n - 4 * k)
  fresh k >>> zeroed <<< zeroed

/-- the loop of the constructor from a text, from its character `i` on -/
def ofStringLoop (length : Nat) : List Char → Nat → Bitvector → Option Bitvector
  | [], _, v => some v
  | c :: x, i, v =>
    (if c = '1' then modifyBit .assign (length - i - 1) true v else some v).bind fun v =>
      ofStringLoop length x (i + 1) v

/-- one word for each character, and as many bytes set to zero; the inline words are left as they
are in `garbage` -/
def ofString (fresh : Nat → Word) (garbage : Word × Word) (x : List Char) : Option Bitvector :=
  -- the length of a longer text does not fit `_max`
  if x.length ≤ intMax then
    ofStringLoop x.length x 0
      ⟨(x.length : Int) - 1, garbage.1, garbage.2,
        some ((List.range x.length).map (memset fresh x.length))⟩
  else none

def toString (v : Bitvector) : Option (List Char) :=
  (List.range v.size.toNat).mapM fun i =>
    (get v (v.size.toNat - i - 1)).map fun b => if b then '1' else '0'

end Bitvector
end BA
