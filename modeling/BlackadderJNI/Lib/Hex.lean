import Mathlib.Data.List.Basic
import Mathlib.Tactic.Common

/-!
# Byte strings as hexadecimal text

Text is a list of character codes, so that one library serves strings of any unit.

* `value`, `digit`   a digit's value, in either case, and the lower-case digit of a value;
* `encode`, `decode` two digits for each byte, and back by pairs;
* `decode_encode`, `encode_decode`   they are inverse, up to the case of the digits.
-/

namespace Hex

def value (c : Nat) : Option Nat :=
  if 48 ≤ c ∧ c ≤ 57 then some (c - 48)
  else if 97 ≤ c ∧ c ≤ 102 then some (c - 87)
  else if 65 ≤ c ∧ c ≤ 70 then some (c - 55)
  else none

def digit (d : Nat) : Nat := if d < 10 then 48 + d else 87 + d

def lower (c : Nat) : Nat := if 65 ≤ c ∧ c ≤ 90 then c + 32 else c

def IsDigit (c : Nat) : Prop := (value c).isSome = true

def IsLowerDigit (c : Nat) : Prop := 48 ≤ c ∧ c ≤ 57 ∨ 97 ≤ c ∧ c ≤ 102

instance (c : Nat) : Decidable (IsDigit c) := inferInstanceAs (Decidable (_ = true))

instance (c : Nat) : Decidable (IsLowerDigit c) := inferInstanceAs (Decidable (_ ∨ _))

def encode (bs : List UInt8) : List Nat :=
  bs.flatMap fun b => [digit (b.toNat / 16), digit (b.toNat % 16)]

def decode : List Nat → List UInt8
  | a :: b :: cs => UInt8.ofNat (16 * (value a).getD 0 + (value b).getD 0) :: decode cs
  | [] => []
  | [_] => []

/-! ## digits -/

theorem isLowerDigit_digit {d : Nat} (hd : d < 16) : IsLowerDigit (digit d) := by
  unfold IsLowerDigit digit
  split <;> omega

theorem value_digit {d : Nat} (hd : d < 16) : value (digit d) = some d := by
  unfold value digit
  by_cases h : d < 10
  · rw [if_pos h, if_pos (by omega), Nat.add_sub_cancel_left]
  · rw [if_neg h, if_neg (by omega), if_pos (by omega), Nat.add_sub_cancel_left]

theorem digit_value {c d : Nat} (h : value c = some d) : d < 16 ∧ digit d = lower c := by
  unfold value at h
  unfold digit lower
  split at h
  · cases h
    rw [if_pos (by omega), if_neg (by omega)]
    omega
  · split at h
    · cases h
      rw [if_neg (by omega), if_neg (by omega)]
      omega
    · split at h
      · cases h
        rw [if_neg (by omega), if_pos (by omega)]
        omega
      · cases h

theorem IsLowerDigit.isDigit {c : Nat} (h : IsLowerDigit c) : IsDigit c := by
  unfold IsLowerDigit at h
  unfold IsDigit value
  rcases h with h | h
  · rw [if_pos h, Option.isSome_some]
  · rw [if_neg (by omega), if_pos h, Option.isSome_some]

theorem IsDigit.bounds {c : Nat} (h : IsDigit c) : 48 ≤ c ∧ c < 103 := by
  obtain ⟨d, hd⟩ := Option.isSome_iff_exists.1 h
  unfold value at hd
  split at hd
  · omega
  · split at hd
    · omega
    · split at hd
      · omega
      · cases hd

/-! ## text -/

theorem encode_cons (b : UInt8) (bs : List UInt8) :
    encode (b :: bs) = digit (b.toNat / 16) :: digit (b.toNat % 16) :: encode bs := rfl

@[simp] theorem length_encode (bs : List UInt8) : (encode bs).length = 2 * bs.length := by
  induction bs with
  | nil => rfl
  | cons b bs ih =>
    rw [encode_cons, List.length_cons, List.length_cons, ih, List.length_cons]
    omega

theorem isLowerDigit_encode {bs : List UInt8} {c : Nat} (h : c ∈ encode bs) : IsLowerDigit c := by
  obtain ⟨b, -, hc⟩ := List.mem_flatMap.1 h
  have hb := b.toNat_lt
  rcases List.mem_pair.1 hc with rfl | rfl
  · exact isLowerDigit_digit (by omega)
  · exact isLowerDigit_digit (by omega)

/-- reading back what was written -/
theorem decode_encode (bs : List UInt8) : decode (encode bs) = bs := by
  induction bs with
  | nil => rfl
  | cons b bs ih =>
    have hb := b.toNat_lt
    have hv : 16 * (b.toNat / 16) + b.toNat % 16 = b.toNat := by omega
    rw [encode_cons, decode, ih, value_digit (by omega), value_digit (by omega), Option.getD_some,
      Option.getD_some, hv, UInt8.ofNat_toNat]

/-- writing what was read gives the text back, in lower case -/
theorem encode_decode {cs : List Nat} (heven : cs.length % 2 = 0) (hdig : ∀ c ∈ cs, IsDigit c) :
    encode (decode cs) = cs.map lower := by
  induction cs using decode.induct with
  | case1 a b cs ih =>
    obtain ⟨x, hx⟩ := Option.isSome_iff_exists.1 (hdig a List.mem_cons_self)
    obtain ⟨y, hy⟩ :=
      Option.isSome_iff_exists.1 (hdig b (List.mem_cons_of_mem _ List.mem_cons_self))
    obtain ⟨hx16, hxa⟩ := digit_value hx
    obtain ⟨hy16, hyb⟩ := digit_value hy
    have hn : (UInt8.ofNat (16 * x + y)).toNat = 16 * x + y := by
      rw [UInt8.toNat_ofNat']
      omega
    have hrest : encode (decode cs) = cs.map lower :=
      ih (by simp only [List.length_cons] at heven; omega) fun c hc =>
        hdig c (List.mem_cons_of_mem _ (List.mem_cons_of_mem _ hc))
    rw [decode, encode_cons, hx, hy, Option.getD_some, Option.getD_some, hn, hrest,
      show (16 * x + y) / 16 = x by omega, show (16 * x + y) % 16 = y by omega, hxa, hyb]
    rfl
  | case2 => rfl
  | case3 a => simp at heven

theorem encode_injective {as bs : List UInt8} (h : encode as = encode bs) : as = bs := by
  rw [← decode_encode as, h, decode_encode]

end Hex
