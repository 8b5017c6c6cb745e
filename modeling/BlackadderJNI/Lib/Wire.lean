import Mathlib.Data.List.Basic
import Mathlib.Tactic.Common
import Mathlib.Tactic.NormNum

/-!
# Byte strings: fixed-width integers, reading, writing into a buffer

* `leBytes w n`, `leValue`   little-endian integers of `w` bytes;
* `readN n l`                the first `n` items of a string and what follows them;
* `write b off src`          a copy into a buffer of fixed size, `none` when it leaves the buffer;
* `layout off segs`          consecutive copies from the offset `off`;
* `writes_layout`            they put the concatenation of the segments there, if it fits;
* `writes_perm`, `slice_writes`   writes to ranges that do not meet;
* `Codec`                    values of a fixed size, put into a buffer and got out of it.
-/

namespace Wire

/-! ## little-endian integers -/

def leBytes : Nat → Nat → List UInt8
  | 0, _ => []
  | w + 1, n => UInt8.ofNat n :: leBytes w (n / 256)

def leValue : List UInt8 → Nat
  | [] => 0
  | b :: bs => b.toNat + 256 * leValue bs

@[simp] theorem length_leBytes (w n : Nat) : (leBytes w n).length = w := by
  induction w generalizing n with
  | zero => rfl
  | succ w ih => exact congrArg (· + 1) (ih (n / 256))

theorem leValue_leBytes (w n : Nat) : leValue (leBytes w n) = n % 256 ^ w := by
  induction w generalizing n with
  | zero => simp [leBytes, leValue, Nat.mod_one]
  | succ w ih =>
    have hb : (UInt8.ofNat n).toNat = n % 256 := UInt8.toNat_ofNat'
    show (UInt8.ofNat n).toNat + 256 * leValue (leBytes w (n / 256)) = _
    rw [hb, ih, pow_succ, Nat.mul_comm (256 ^ w), Nat.mod_mul]

/-! ## reading -/

section
variable {α : Type*}

def readN (n : Nat) (l : List α) : Option (List α × List α) :=
  if n ≤ l.length then some (l.take n, l.drop n) else none

theorem readN_append (a b : List α) : readN a.length (a ++ b) = some (a, b) := by
  simp [readN]

theorem readN_some {n : Nat} {l a b : List α} (h : readN n l = some (a, b)) :
    l = a ++ b ∧ a.length = n := by
  unfold readN at h
  split at h
  · next hn =>
    cases h
    exact ⟨(List.take_append_drop n l).symm, List.length_take_of_le hn⟩
  · cases h

end

/-! ## writing into a buffer -/

section
variable {α : Type*}

def write (b : List α) (off : Nat) (src : List α) : Option (List α) :=
  if off + src.length ≤ b.length then some (b.take off ++ src ++ b.drop (off + src.length))
  else none

def writes (b : List α) : List (Nat × List α) → Option (List α)
  | [] => some b
  | (off, src) :: ws => (write b off src).bind fun b' => writes b' ws

def layout (off : Nat) : List (List α) → List (Nat × List α)
  | [] => []
  | s :: segs => (off, s) :: layout (off + s.length) segs

theorem write_append (pre rest src : List α) :
    write (pre ++ rest) pre.length src =
      if src.length ≤ rest.length then some (pre ++ src ++ rest.drop src.length) else none := by
  unfold write
  rw [List.length_append]
  by_cases h : src.length ≤ rest.length
  · rw [if_pos h, if_pos (by omega), List.take_left, List.drop_append]
    simp
  · rw [if_neg h, if_neg (by omega)]

theorem writes_layout (pre rest : List α) (segs : List (List α)) :
    writes (pre ++ rest) (layout pre.length segs) =
      if segs.flatten.length ≤ rest.length then
        some (pre ++ segs.flatten ++ rest.drop segs.flatten.length)
      else none := by
  induction segs generalizing pre rest with
  | nil => simp [writes, layout]
  | cons s segs ih =>
    show (write (pre ++ rest) pre.length s).bind _ = _
    rw [write_append, List.flatten_cons, List.length_append]
    by_cases hs : s.length ≤ rest.length
    · have hlen : pre.length + s.length = (pre ++ s).length := List.length_append.symm
      rw [if_pos hs]
      show writes (pre ++ s ++ rest.drop s.length) (layout (pre.length + s.length) segs) = _
      rw [hlen, ih, List.length_drop, List.drop_drop]
      by_cases h : s.length + segs.flatten.length ≤ rest.length
      · rw [if_pos h, if_pos (by omega)]
        simp [List.append_assoc]
      · rw [if_neg h, if_neg (by omega)]
    · rw [if_neg hs, if_neg (by omega)]
      rfl

end

/-! ## ranges of a buffer -/

section
variable {α : Type*} {b b' : List α} {off : Nat} {src : List α}

def slice (b : List α) (off n : Nat) : List α := (b.drop off).take n

theorem getElem?_slice (n j : Nat) :
    (slice b off n)[j]? = if j < n then b[off + j]? else none := by
  unfold slice
  rw [List.getElem?_take, List.getElem?_drop]

theorem slice_succ (n : Nat) (h : off < b.length) :
    slice b off (n + 1) = b[off] :: slice b (off + 1) n := by
  unfold slice
  rw [List.drop_eq_getElem_cons h, List.take_succ_cons]

theorem length_slice {n : Nat} (h : off + n ≤ b.length) : (slice b off n).length = n := by
  unfold slice
  rw [List.length_take, List.length_drop]
  omega

theorem write_some (h : write b off src = some b') :
    off + src.length ≤ b.length ∧ b' = b.take off ++ src ++ b.drop (off + src.length) := by
  unfold write at h
  split at h
  · next hfit => exact ⟨hfit, (Option.some.inj h).symm⟩
  · cases h

theorem length_write (h : write b off src = some b') : b'.length = b.length := by
  obtain ⟨hfit, rfl⟩ := write_some h
  simp only [List.length_append, List.length_take, List.length_drop]
  omega

/-- a written buffer, place by place: all that the theorems below need to know of `write` -/
theorem getElem?_write (h : write b off src = some b') (j : Nat) :
    b'[j]? = if off ≤ j ∧ j < off + src.length then src[j - off]? else b[j]? := by
  obtain ⟨hfit, rfl⟩ := write_some h
  have hoff : (b.take off).length = off := List.length_take_of_le (by omega)
  have hmid : (b.take off ++ src).length = off + src.length := by rw [List.length_append, hoff]
  by_cases hlow : j < off
  · rw [if_neg (by omega), List.append_assoc, List.getElem?_append_left (by omega),
      List.getElem?_take, if_pos hlow]
  · by_cases hhigh : j < off + src.length
    · rw [if_pos (by omega), List.getElem?_append_left (by omega),
        List.getElem?_append_right (by omega), hoff]
    · have hsum : off + src.length + (j - (off + src.length)) = j := by omega
      rw [if_neg (by omega), List.getElem?_append_right (by omega), hmid, List.getElem?_drop, hsum]

theorem write_fits (hfit : off + src.length ≤ b.length) : ∃ b', write b off src = some b' :=
  ⟨_, if_pos hfit⟩

/-- the places outside the written range keep their items -/
theorem write_frame (h : write b off src = some b') {j : Nat}
    (hj : j < off ∨ off + src.length ≤ j) : b'[j]? = b[j]? := by
  rw [getElem?_write h, if_neg (by omega)]

theorem slice_write (h : write b off src = some b') : slice b' off src.length = src := by
  refine List.ext_getElem? fun j => ?_
  rw [getElem?_slice]
  by_cases hj : j < src.length
  · rw [if_pos hj, getElem?_write h, if_pos (by omega), Nat.add_sub_cancel_left]
  · rw [if_neg hj, List.getElem?_eq_none (by omega)]

theorem slice_congr {n : Nat} (h : ∀ j, off ≤ j → j < off + n → b'[j]? = b[j]?) :
    slice b' off n = slice b off n := by
  refine List.ext_getElem? fun j => ?_
  rw [getElem?_slice, getElem?_slice]
  by_cases hj : j < n
  · rw [if_pos hj, if_pos hj, h (off + j) (by omega) (by omega)]
  · rw [if_neg hj, if_neg hj]

/-- writing back what stands there -/
theorem write_slice {n : Nat} (hfit : off + n ≤ b.length) :
    write b off (slice b off n) = some b := by
  have hlen := length_slice hfit
  have hfit' : off + (slice b off n).length ≤ b.length := hlen.symm ▸ hfit
  obtain ⟨b', hb'⟩ := write_fits hfit'
  rw [hb']
  refine congrArg some (List.ext_getElem? fun j => ?_)
  rw [getElem?_write hb', hlen]
  split
  · next hj =>
    have hsum : off + (j - off) = j := by omega
    rw [getElem?_slice, if_pos (by omega), hsum]
  · rfl

theorem write_eq_none : write b off src = none ↔ ¬off + src.length ≤ b.length := by
  unfold write
  split
  · next hfit => exact iff_of_false nofun fun hn => hn hfit
  · next hfit => exact iff_of_true rfl hfit

/-- writes to ranges that do not meet can be exchanged -/
theorem write_comm {off' : Nat} {src' : List α}
    (hd : off + src.length ≤ off' ∨ off' + src'.length ≤ off) :
    (write b off src).bind (write · off' src') = (write b off' src').bind (write · off src) := by
  cases h : write b off src with
  | none =>
    cases h' : write b off' src' with
    | none => rfl
    | some b₂ =>
      have hnone : write b₂ off src = none := by
        rw [write_eq_none, length_write h']
        exact write_eq_none.1 h
      exact hnone.symm
  | some b₁ =>
    cases h' : write b off' src' with
    | none =>
      show write b₁ off' src' = none
      rw [write_eq_none, length_write h]
      exact write_eq_none.1 h'
    | some b₂ =>
      have hfit : off + src.length ≤ b₂.length := (length_write h').symm ▸ (write_some h).1
      have hfit' : off' + src'.length ≤ b₁.length := (length_write h).symm ▸ (write_some h').1
      obtain ⟨c, hc⟩ := write_fits hfit
      obtain ⟨c', hc'⟩ := write_fits hfit'
      show write b₁ off' src' = write b₂ off src
      rw [hc, hc']
      refine congrArg some (List.ext_getElem? fun j => ?_)
      rw [getElem?_write hc, getElem?_write hc', getElem?_write h, getElem?_write h']
      by_cases hj : off ≤ j ∧ j < off + src.length
      · rw [if_neg (by omega), if_pos hj, if_pos hj]
      · rw [if_neg hj, if_neg hj]

end

/-! ## several writes -/

section
variable {α : Type*} {b b' : List α} {ws ws' : List (Nat × List α)}

/-- the ranges of two writes do not meet -/
def Apart (p q : Nat × List α) : Prop := p.1 + p.2.length ≤ q.1 ∨ q.1 + q.2.length ≤ p.1

theorem Apart.symm {p q : Nat × List α} (h : Apart p q) : Apart q p := Or.symm h

theorem writes_cons (p : Nat × List α) :
    writes b (p :: ws) = (write b p.1 p.2).bind fun b' => writes b' ws := rfl

theorem writes_fits (hfit : ∀ p ∈ ws, p.1 + p.2.length ≤ b.length) :
    ∃ b', writes b ws = some b' := by
  induction ws generalizing b with
  | nil => exact ⟨b, rfl⟩
  | cons p ws ih =>
    obtain ⟨c, hc⟩ := write_fits (hfit p List.mem_cons_self)
    rw [writes_cons, hc]
    exact ih fun q hq => (length_write hc).symm ▸ hfit q (List.mem_cons_of_mem p hq)

theorem length_writes (h : writes b ws = some b') : b'.length = b.length := by
  induction ws generalizing b with
  | nil =>
    cases h
    rfl
  | cons p ws ih =>
    obtain ⟨c, hc, hrest⟩ := Option.bind_eq_some_iff.1 h
    rw [ih hrest, length_write hc]

theorem writes_frame (h : writes b ws = some b') {j : Nat}
    (hj : ∀ p ∈ ws, j < p.1 ∨ p.1 + p.2.length ≤ j) : b'[j]? = b[j]? := by
  induction ws generalizing b with
  | nil =>
    cases h
    rfl
  | cons p ws ih =>
    obtain ⟨c, hc, hrest⟩ := Option.bind_eq_some_iff.1 h
    rw [ih hrest fun q hq => hj q (List.mem_cons_of_mem p hq),
      write_frame hc (hj p List.mem_cons_self)]

/-- what was written stays where the later writes do not reach -/
theorem slice_writes (hws : ws.Pairwise Apart) (h : writes b ws = some b') {p : Nat × List α}
    (hp : p ∈ ws) : slice b' p.1 p.2.length = p.2 := by
  induction hws generalizing b with
  | nil => exact (List.not_mem_nil hp).elim
  | @cons q ws hq _ ih =>
    obtain ⟨c, hc, hrest⟩ := Option.bind_eq_some_iff.1 h
    rcases List.mem_cons.1 hp with rfl | hp
    · refine (slice_congr fun j hj hj' => writes_frame hrest fun r hr => ?_).trans (slice_write hc)
      have hapart := hq r hr
      unfold Apart at hapart
      omega
    · exact ih hrest hp

/-- the order of writes to ranges that do not meet is free -/
theorem writes_perm (hperm : ws.Perm ws') (hws : ws.Pairwise Apart) :
    writes b ws = writes b ws' := by
  induction hperm generalizing b with
  | nil => rfl
  | cons p _ ih =>
    have hrest := (List.pairwise_cons.1 hws).2
    rw [writes_cons, writes_cons]
    exact Option.bind_congr fun c _ => ih hrest
  | @swap p q ws =>
    have hpq : Apart q p := (List.pairwise_cons.1 hws).1 p List.mem_cons_self
    have hcomm := congrArg (fun x : Option (List α) => x.bind fun b' => writes b' ws)
      (write_comm (b := b) hpq)
    simpa only [writes_cons, Option.bind_assoc] using hcomm
  | trans h₁ _ ih₁ ih₂ =>
    rw [ih₁ hws, ih₂ ((h₁.pairwise_iff fun h => h.symm).1 hws)]

/-- storing one item after the other is one write -/
theorem writes_singles {off : Nat} (src : List α) (hoff : off ≤ b.length) :
    writes b (layout off (src.map fun x => [x])) = write b off src := by
  have hpre : (b.take off).length = off := List.length_take_of_le hoff
  have hall := writes_layout (b.take off) (b.drop off) (src.map fun x => [x])
  have hone := write_append (b.take off) (b.drop off) src
  have hflat : (src.map fun x => [x]).flatten = src := by
    rw [← List.flatMap_def]
    exact List.flatMap_singleton' src
  rw [List.take_append_drop, hpre, hflat] at hall
  rw [List.take_append_drop, hpre] at hone
  rw [hall, hone]

end

/-! ## values of a fixed size in a buffer -/

/-- an encoding of the values of `V` by exactly the strings of `size` items -/
structure Codec (α V : Type*) where
  size : Nat
  encode : V → List α
  decode : List α → V
  length_encode : ∀ v, (encode v).length = size
  decode_encode : ∀ v, decode (encode v) = v
  encode_decode : ∀ l, l.length = size → encode (decode l) = l

namespace Codec

variable {α V : Type*} (c : Codec α V) {b b' : List α} {off : Nat} {v : V}

def put (b : List α) (off : Nat) (v : V) : Option (List α) := write b off (c.encode v)

def get (b : List α) (off : Nat) : Option V :=
  if off + c.size ≤ b.length then some (c.decode (slice b off c.size)) else none

theorem put_fits (v : V) (hfit : off + c.size ≤ b.length) :
    ∃ b', c.put b off v = some b' ∧ b'.length = b.length ∧ slice b' off c.size = c.encode v ∧
      ∀ j, j < off ∨ off + c.size ≤ j → b'[j]? = b[j]? := by
  have hlen := c.length_encode v
  obtain ⟨b', hb'⟩ := write_fits (hlen.symm ▸ hfit)
  exact ⟨b', hb', length_write hb', hlen ▸ slice_write hb',
    fun j hj => write_frame hb' (hlen.symm ▸ hj)⟩

theorem get_of_slice (hfit : off + c.size ≤ b.length) (h : slice b off c.size = c.encode v) :
    c.get b off = some v := by
  unfold get
  rw [if_pos hfit, h, c.decode_encode]

theorem put_get (h : c.get b off = some v) : c.put b off v = some b := by
  unfold get at h
  split at h
  · next hfit =>
    cases h
    unfold put
    rw [c.encode_decode _ (length_slice hfit), write_slice hfit]
  · cases h

end Codec

end Wire
