import BlackadderJNI.Bytes
import BlackadderJNI.Lib.Hex
import Mathlib.Data.List.Induction

/-!
# Identifiers as hexadecimal text

Translation of the conversions in `BAHelper.java`, with the native functions behind them
(`…_BAWrapperShared.cpp`, `chararray_to_hex` and `hex_to_chararray` in `blackadder.cpp`).

* `chararrayToHex_codes`     the text is the encoding of `Hex`;
* `hexToChararray_of_digits` hexadecimal digits are read as `Hex` reads them;
* `hex_roundTrip`            the two conversions undo each other.
-/

namespace BA

/-! ## from bytes to text -/

/-- what `oss << hex << n` prints for an `unsigned short` -/
def hex (n : Nat) : List Char := Nat.toDigits 16 n

def chararrayToHex (str : Bytes) : List Char :=
  str.flatMap fun c => if c.toNat > 15 then hex c.toNat else '0' :: hex c.toNat

namespace Wrapper

/-- `GetByteArrayElements` of null is undefined, here `none` -/
def BAWrapperShared.cCharToHex (charArray : Option Bytes) : Option String :=
  charArray.map fun str => String.ofList (chararrayToHex str)

def BAHelper.byteToHex (data : Option Bytes) : Option String := BAWrapperShared.cCharToHex data

example : BAHelper.byteToHex (some [10, 255]) = some "0aff" := by decide

end Wrapper

theorem toNat_digitChar {d : Nat} (hd : d < 16) : (Nat.digitChar d).toNat = Hex.digit d := by
  by_cases h : d < 10
  · rw [Nat.toNat_digitChar_of_lt_ten h, Hex.digit, if_pos h]
  · have hd : d = 10 ∨ d = 11 ∨ d = 12 ∨ d = 13 ∨ d = 14 ∨ d = 15 := by omega
    rcases hd with rfl | rfl | rfl | rfl | rfl | rfl <;> rfl

/-- the zero that the stream does not print is written first, for exactly the bytes below 16 -/
theorem byteText_codes (c : UInt8) :
    (if c.toNat > 15 then hex c.toNat else '0' :: hex c.toNat).map Char.toNat =
      [Hex.digit (c.toNat / 16), Hex.digit (c.toNat % 16)] := by
  have hc := c.toNat_lt
  unfold hex
  by_cases h : c.toNat > 15
  · rw [if_pos h, Nat.toDigits_of_base_le (by omega) (by omega),
      Nat.toDigits_of_lt_base (by omega), List.map_append, List.map_singleton, List.map_singleton,
      toNat_digitChar (by omega), toNat_digitChar (by omega)]
    rfl
  · have hdiv : c.toNat / 16 = 0 := by omega
    have hmod : c.toNat % 16 = c.toNat := by omega
    rw [if_neg h, Nat.toDigits_of_lt_base (by omega), List.map_cons, List.map_singleton,
      toNat_digitChar (by omega), hdiv, hmod]
    rfl

theorem chararrayToHex_codes (str : Bytes) :
    (chararrayToHex str).map Char.toNat = Hex.encode str := by
  unfold chararrayToHex Hex.encode
  rw [List.map_flatMap]
  exact List.flatMap_congr fun c _ => byteText_codes c

@[simp] theorem length_chararrayToHex (str : Bytes) :
    (chararrayToHex str).length = 2 * str.length := by
  rw [← Hex.length_encode, ← chararrayToHex_codes, List.length_map]

/-! ## from text to bytes -/

/-- `std::isspace` in the "C" locale -/
def isSpace (c : UInt8) : Bool := c == 32 || (9 ≤ c && c ≤ 13)

def dropSign (s : Bytes) : Bytes := if s.head? = some 43 ∨ s.head? = some 45 then s.tail else s

/-- a `0x` or `0X` in front is skipped -/
def dropBase (s : Bytes) : Bytes :=
  if s.take 2 = [48, 120] ∨ s.take 2 = [48, 88] then s.drop 2 else s

def readDigits (s : Bytes) : Nat :=
  (s.takeWhile fun c => (Hex.value c.toNat).isSome).foldl
    (fun n c => 16 * n + (Hex.value c.toNat).getD 0) 0

/-- what `iss >> hex >> n` stores in the `unsigned int` `n`; `none` when there are only blanks:
the sentry fails then, before anything is stored -/
def extractHex (s : Bytes) : Option UInt32 :=
  let t := s.dropWhile isSpace
  if t = [] then none
  else
    let n := readDigits (dropBase (dropSign t))   -- 0 where no digit is found
    if 4294967295 < n then some 4294967295
    else if t.head? = some 45 then some (-UInt32.ofNat n)
    else some (UInt32.ofNat n)

/-- `n₀ i` is the value the uninitialised `n` has in round `i` -/
def hexToChararray (n₀ : Nat → UInt32) (hexstr : Bytes) : Bytes :=
  (List.range (hexstr.length / 2)).map fun i =>
    ((extractHex ((hexstr.drop (i * 2)).take 2)).getD (n₀ i)).toUInt8

@[simp] theorem length_hexToChararray (n₀ : Nat → UInt32) (hexstr : Bytes) :
    (hexToChararray n₀ hexstr).length = hexstr.length / 2 := by
  rw [hexToChararray, List.length_map, List.length_range]

theorem hexToChararray_cons (n₀ : Nat → UInt32) (a b : UInt8) (s : Bytes) :
    hexToChararray n₀ (a :: b :: s) =
      ((extractHex [a, b]).getD (n₀ 0)).toUInt8 :: hexToChararray (fun i => n₀ (i + 1)) s := by
  have hlen : (a :: b :: s).length / 2 = s.length / 2 + 1 := by
    simp only [List.length_cons]
    omega
  unfold hexToChararray
  rw [hlen, List.range_succ_eq_map, List.map_cons, List.map_map]
  refine congrArg (_ :: ·) (List.map_congr_left fun i _ => ?_)
  have hi : (i + 1) * 2 = i * 2 + 2 := by omega
  show ((extractHex (((a :: b :: s).drop ((i + 1) * 2)).take 2)).getD _).toUInt8 = _
  rw [hi]
  rfl

theorem not_isSpace {c : UInt8} (hc : Hex.IsDigit c.toNat) : isSpace c = false := by
  have hlt := hc.bounds.1
  have hne : c ≠ 32 := by
    rintro rfl
    exact absurd hlt (by decide)
  have hhi : ¬c ≤ 13 := fun h => by
    have h := UInt8.le_iff_toNat_le.1 h
    change c.toNat ≤ 13 at h
    omega
  simp [isSpace, hne, hhi]

theorem extractHex_pair {a b : UInt8} (ha : Hex.IsDigit a.toNat) (hb : Hex.IsDigit b.toNat) :
    extractHex [a, b] =
      some (UInt32.ofNat (16 * (Hex.value a.toNat).getD 0 + (Hex.value b.toNat).getD 0)) := by
  -- neither a sign nor the letter of `0x` is a digit
  have hne : ∀ {d c : UInt8}, Hex.IsDigit d.toNat → ¬Hex.IsDigit c.toNat → d ≠ c :=
    fun hd hc he => hc (he ▸ hd)
  have ht : [a, b].dropWhile isSpace = [a, b] :=
    List.dropWhile_cons_of_neg (Bool.eq_false_iff.1 (not_isSpace ha))
  have hplus : a ≠ 43 := hne ha (by decide)
  have hminus : a ≠ 45 := hne ha (by decide)
  have hsign : dropSign [a, b] = [a, b] := by simp [dropSign, hplus, hminus]
  have hbase : dropBase [a, b] = [a, b] := by
    have hx : b ≠ 120 := hne hb (by decide)
    have hX : b ≠ 88 := hne hb (by decide)
    simp [dropBase, hx, hX]
  obtain ⟨x, hx⟩ := Option.isSome_iff_exists.1 ha
  obtain ⟨y, hy⟩ := Option.isSome_iff_exists.1 hb
  have hn : readDigits [a, b] = 16 * x + y := by simp [readDigits, hx, hy]
  have hx16 := (Hex.digit_value hx).1
  have hy16 := (Hex.digit_value hy).1
  unfold extractHex
  simp only [ht, hsign, hbase, hn, hx, hy, Option.getD_some]
  rw [if_neg (List.cons_ne_nil a [b]), if_neg (by omega), if_neg (by simpa using hminus)]

theorem hexToChararray_of_digits (n₀ : Nat → UInt32) (s : Bytes)
    (hs : ∀ c ∈ s, Hex.IsDigit c.toNat) :
    hexToChararray n₀ s = Hex.decode (s.map UInt8.toNat) := by
  induction s using List.twoStepInduction generalizing n₀ with
  | nil => rfl
  | singleton a => simp [hexToChararray, Hex.decode]
  | cons_cons a b s ih _ =>
    have ha := hs a List.mem_cons_self
    have hb := hs b (List.mem_cons_of_mem _ List.mem_cons_self)
    have hrest := ih (fun i => n₀ (i + 1)) fun c hc =>
      hs c (List.mem_cons_of_mem _ (List.mem_cons_of_mem _ hc))
    rw [hexToChararray_cons, extractHex_pair ha hb, Option.getD_some, UInt32.toUInt8_ofNat', hrest]
    rfl

namespace Wrapper

/-! ## the two conversions in Java -/

/-- a Java `String`: any sequence of UTF-16 units -/
abbrev JavaString := List UInt16

/-- the units that `NewStringUTF` makes of a text -/
def javaString (s : String) : JavaString :=
  s.toList.flatMap fun c =>
    if c.toNat < 0x10000 then [UInt16.ofNat c.toNat]
    else [UInt16.ofNat (0xD800 + (c.toNat - 0x10000) / 0x400),
      UInt16.ofNat (0xDC00 + (c.toNat - 0x10000) % 0x400)]

/-- modified UTF-8 of one unit: NUL takes two bytes, a surrogate three -/
def utfBytes (c : UInt16) : Bytes :=
  let n := c.toNat
  if 0 < n ∧ n < 0x80 then [UInt8.ofNat n]
  else if n < 0x800 then [UInt8.ofNat (0xC0 + n / 0x40), UInt8.ofNat (0x80 + n % 0x40)]
  else [UInt8.ofNat (0xE0 + n / 0x1000), UInt8.ofNat (0x80 + n / 0x40 % 0x40),
    UInt8.ofNat (0x80 + n % 0x40)]

/-- `GetStringUTFChars`, of the length that `GetStringUTFLength` gives -/
def getStringUTFChars (s : JavaString) : Bytes := s.flatMap utfBytes

/-- for a string that is not null; of null `GetStringUTFChars` is undefined -/
def BAWrapperShared.cHexToChar (n₀ : Nat → UInt32) (hex : JavaString) : Bytes :=
  hexToChararray n₀ (getStringUTFChars hex)

def BAHelper.hexToByte (n₀ : Nat → UInt32) (hex : JavaString) : Bytes :=
  BAWrapperShared.cHexToChar n₀ hex

def IsHexDigit (c : UInt16) : Prop := Hex.IsDigit c.toNat

def IsLowerHexDigit (c : UInt16) : Prop := Hex.IsLowerDigit c.toNat

instance (c : UInt16) : Decidable (IsHexDigit c) := inferInstanceAs (Decidable (Hex.IsDigit _))

instance (c : UInt16) : Decidable (IsLowerHexDigit c) :=
  inferInstanceAs (Decidable (Hex.IsLowerDigit _))

/-- `String.toLowerCase` on ASCII -/
def toLowerCase (s : JavaString) : JavaString := s.map fun c => UInt16.ofNat (Hex.lower c.toNat)

theorem javaString_ofList (cs : List Char) (hcs : ∀ c ∈ cs, c.toNat < 0x10000) :
    (javaString (String.ofList cs)).map UInt16.toNat = cs.map Char.toNat := by
  unfold javaString
  rw [String.toList_ofList, List.map_flatMap, ← List.flatMap_pure_eq_map]
  refine List.flatMap_congr fun c hc => ?_
  have hlt := hcs c hc
  rw [if_pos hlt, List.map_singleton, UInt16.toNat_ofNat', Nat.mod_eq_of_lt hlt]
  rfl

theorem byteToHex_codes (b : Bytes) :
    ∃ s, BAHelper.byteToHex (some b) = some s ∧ (javaString s).map UInt16.toNat = Hex.encode b := by
  refine ⟨_, rfl, ?_⟩
  rw [javaString_ofList, chararrayToHex_codes]
  intro c hc
  have hmem : c.toNat ∈ Hex.encode b := by
    rw [← chararrayToHex_codes]
    exact List.mem_map_of_mem hc
  have hlow := Hex.isLowerDigit_encode hmem
  unfold Hex.IsLowerDigit at hlow
  omega

theorem utfBytes_of_digit {c : UInt16} (hc : IsHexDigit c) :
    (utfBytes c).map UInt8.toNat = [c.toNat] := by
  have hlt := Hex.IsDigit.bounds hc
  unfold utfBytes
  rw [if_pos (by omega), List.map_singleton, UInt8.toNat_ofNat', Nat.mod_eq_of_lt (by omega)]

theorem getStringUTFChars_of_digits {h : JavaString} (hh : ∀ c ∈ h, IsHexDigit c) :
    (getStringUTFChars h).map UInt8.toNat = h.map UInt16.toNat := by
  unfold getStringUTFChars
  rw [List.map_flatMap, ← List.flatMap_pure_eq_map]
  exact List.flatMap_congr fun c hc => utfBytes_of_digit (hh c hc)

theorem hexToByte_of_digits (n₀ : Nat → UInt32) {h : JavaString} (hh : ∀ c ∈ h, IsHexDigit c) :
    BAHelper.hexToByte n₀ h = Hex.decode (h.map UInt16.toNat) := by
  have hcodes := getStringUTFChars_of_digits hh
  rw [← hcodes]
  refine hexToChararray_of_digits n₀ _ fun c hc => ?_
  have hmem : c.toNat ∈ h.map UInt16.toNat := hcodes ▸ List.mem_map_of_mem hc
  obtain ⟨d, hd, hdc⟩ := List.mem_map.1 hmem
  exact hdc ▸ hh d hd

theorem map_toNat_injective {s t : JavaString} (h : s.map UInt16.toNat = t.map UInt16.toNat) :
    s = t :=
  List.map_injective_iff.2 (fun _ _ => UInt16.toNat_inj.1) h

theorem map_toNat_toLowerCase {h : JavaString} (hh : ∀ c ∈ h, IsHexDigit c) :
    (toLowerCase h).map UInt16.toNat = (h.map UInt16.toNat).map Hex.lower := by
  unfold toLowerCase
  rw [List.map_map, List.map_map]
  refine List.map_congr_left fun c hc => ?_
  have hlt := Hex.IsDigit.bounds (hh c hc)
  have hlow : Hex.lower c.toNat < 2 ^ 16 := by
    unfold Hex.lower
    split <;> omega
  exact (UInt16.toNat_ofNat').trans (Nat.mod_eq_of_lt hlow)

/-- reading the text that was made of `b` -/
theorem hexToByte_byteToHex (n₀ : Nat → UInt32) {b : Bytes} {s : JavaString}
    (hs : s.map UInt16.toNat = Hex.encode b) :
    (∀ c ∈ s, IsLowerHexDigit c) ∧ BAHelper.hexToByte n₀ s = b := by
  have hlow : ∀ c ∈ s, IsLowerHexDigit c := fun c hc =>
    Hex.isLowerDigit_encode (hs ▸ List.mem_map_of_mem hc)
  refine ⟨hlow, ?_⟩
  rw [hexToByte_of_digits n₀ fun c hc => (hlow c hc).isDigit, hs, Hex.decode_encode]

/-- the text made of what hexadecimal digits were read as -/
theorem byteToHex_hexToByte (n₀ : Nat → UInt32) {h : JavaString} (heven : h.length % 2 = 0)
    (hh : ∀ c ∈ h, IsHexDigit c) :
    (BAHelper.byteToHex (some (BAHelper.hexToByte n₀ h))).map javaString =
      some (toLowerCase h) := by
  obtain ⟨s, hs, hcodes⟩ := byteToHex_codes (BAHelper.hexToByte n₀ h)
  have hdig : ∀ c ∈ h.map UInt16.toNat, Hex.IsDigit c := fun c hc => by
    obtain ⟨d, hd, rfl⟩ := List.mem_map.1 hc
    exact hh d hd
  rw [hexToByte_of_digits n₀ hh,
    Hex.encode_decode (by rwa [List.length_map]) hdig, ← map_toNat_toLowerCase hh] at hcodes
  rw [hs, Option.map_some, map_toNat_injective hcodes]

/-- **The two conversions undo each other**: every byte string is written as two lower-case digits
for each byte and read back, and every text of an even number of hexadecimal digits is written
back in lower case. -/
theorem hex_roundTrip (n₀ : Nat → UInt32) :
    (∀ b : Bytes, ∃ s, BAHelper.byteToHex (some b) = some s ∧
      (javaString s).length = 2 * b.length ∧ (∀ c ∈ javaString s, IsLowerHexDigit c) ∧
      BAHelper.hexToByte n₀ (javaString s) = b) ∧
    ∀ h : JavaString, h.length % 2 = 0 → (∀ c ∈ h, IsHexDigit c) →
      (BAHelper.byteToHex (some (BAHelper.hexToByte n₀ h))).map javaString =
        some (toLowerCase h) := by
  refine ⟨fun b => ?_, fun h heven hh => byteToHex_hexToByte n₀ heven hh⟩
  obtain ⟨s, hs, hcodes⟩ := byteToHex_codes b
  obtain ⟨hlow, hback⟩ := hexToByte_byteToHex n₀ hcodes
  have hlen := congrArg List.length hcodes
  rw [List.length_map, Hex.length_encode] at hlen
  exact ⟨s, hs, hlen, hlow, hback⟩

/-- `0Aff` -/
theorem hex_roundTrip_mixed :
    (BAHelper.byteToHex (some (BAHelper.hexToByte (fun _ => 0) [48, 65, 102, 102]))).map
      javaString = some [48, 97, 102, 102] :=
  (hex_roundTrip fun _ => 0).2 [48, 65, 102, 102] rfl
    (by simp [IsHexDigit, Hex.IsDigit, Hex.value])

/-- blanks alone store nothing, a sign is read, a base prefix and a stray letter are 0 -/
example : BAHelper.hexToByte (fun _ => 7) [32, 32, 45, 49, 48, 120, 122, 122] = [7, 255, 0, 0] := by
  decide

end Wrapper
end BA
