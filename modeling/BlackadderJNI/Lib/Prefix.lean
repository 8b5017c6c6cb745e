import Mathlib.Data.List.Infix
import Mathlib.Data.List.Range
import Mathlib.Tactic.Common
import Mathlib.Tactic.Ring

/-!
# Prefixes of lists: longest match, deepest prefix, chunks

A partial map `M : List α → Option β` from keys to values.

* `IsLongestMatch M l r`   `r` is the value of the longest bound key that is a prefix of `l`
                           (`none` when no bound key is);
* `Reaches M p`            `p` is a prefix of some bound key;
* `IsDeepest E l n`        `l.take n` is the longest prefix of `l` that satisfies `E`;
* `Covered A M l`          no bound key leaves `l` strictly below the longest bound prefix of `l`
                           (seen at the prefixes that satisfy `A` only);
* `longest_iff_covered`    the value at the deepest prefix that begins a bound key is the
                           longest match if and only if `l` is covered.

`Coding f A M N l`: the map `f` renames the prefixes of `l` (with `A`) to those of `f l`, carries
the values of `M` to those of `N`, and keeps which of them begin a bound key; the notions above
are then the same for `M` at `l` and for `N` at `f l` (`Coding.longest_iff`,
`Coding.covered_iff`).

`chunks k l` cuts `l` into consecutive pieces of length `k` (a shorter rest is dropped),
`alignedPrefixes k l` lists its prefixes whose length is a multiple of `k`.
-/

namespace Prefix

section
variable {α β : Type*}

def IsLongestMatch (M : List α → Option β) (l : List α) : Option β → Prop
  | some v => ∃ key, M key = some v ∧ key <+: l ∧
      ∀ key', M key' ≠ none → key' <+: l → key'.length ≤ key.length
  | none => ∀ key, key <+: l → M key = none

def Reaches (M : List α → Option β) (p : List α) : Prop := ∃ key, M key ≠ none ∧ p <+: key

def IsDeepest (E : List α → Prop) (l : List α) (n : Nat) : Prop :=
  n ≤ l.length ∧ E (l.take n) ∧ ∀ m, n < m → m ≤ l.length → ¬ E (l.take m)

/-- once some bound key is a prefix of `l`, every nonempty prefix of `l` (with `A`) that begins
a bound key is continued by a bound prefix of `l` -/
def Covered (A : List α → Prop) (M : List α → Option β) (l : List α) : Prop :=
  (∃ q, M q ≠ none ∧ q <+: l) →
    ∀ p, p ≠ [] → A p → p <+: l → Reaches M p → ∃ q, M q ≠ none ∧ p <+: q ∧ q <+: l

theorem Reaches.of_bound {M : List α → Option β} {p : List α} (h : M p ≠ none) : Reaches M p :=
  ⟨p, h, List.prefix_refl p⟩

theorem Reaches.anti {M : List α → Option β} {p q : List α} (h : Reaches M q)
    (hp : p <+: q) : Reaches M p := by
  obtain ⟨key, hk, hq⟩ := h
  exact ⟨key, hk, hp.trans hq⟩

theorem prefix_eq_take {p l : List α} (h : p <+: l) : p = l.take p.length :=
  List.prefix_iff_eq_take.mp h

theorem IsDeepest.congr {E E' : List α → Prop} {l : List α} {n : Nat} (hn : IsDeepest E l n)
    (hE : ∀ p, E p ↔ E' p) : IsDeepest E' l n :=
  ⟨hn.1, (hE _).mp hn.2.1, fun m hm hle hc => hn.2.2 m hm hle ((hE _).mpr hc)⟩

theorem IsDeepest.prefix_take {E : List α → Prop} {l p : List α} {n : Nat} (hn : IsDeepest E l n)
    (hp : p <+: l) (hE : E p) : p <+: l.take n := by
  have hle : p.length ≤ n := by
    by_contra hlt
    refine hn.2.2 p.length (by omega) hp.length_le ?_
    rwa [← prefix_eq_take hp]
  rw [prefix_eq_take hp]
  exact List.take_prefix_take_left hle

theorem IsLongestMatch.unique {M : List α → Option β} {l : List α} {r r' : Option β}
    (h : IsLongestMatch M l r) (h' : IsLongestMatch M l r') : r = r' := by
  have hnone : ∀ v, IsLongestMatch M l none → ¬ IsLongestMatch M l (some v) := by
    rintro v hn ⟨key, hkey, hpre, _⟩
    rw [hn key hpre] at hkey
    cases hkey
  cases r with
  | none =>
    cases r' with
    | none => rfl
    | some v => exact absurd h' (hnone v h)
  | some v =>
    cases r' with
    | none => exact absurd h (hnone v h')
    | some v' =>
      obtain ⟨key, hkey, hpre, hmax⟩ := h
      obtain ⟨key', hkey', hpre', hmax'⟩ := h'
      have hle := hmax key' (by rw [hkey']; exact Option.some_ne_none v') hpre'
      have hle' := hmax' key (by rw [hkey]; exact Option.some_ne_none v) hpre
      have e : key = key' :=
        (List.prefix_of_prefix_length_le hpre hpre' hle').eq_of_length (by omega)
      rw [← hkey, ← hkey', e]

/-- a value at the deepest prefix that begins a bound key is the longest match -/
theorem longest_of_some {M : List α → Option β} {l : List α} {n : Nat} {v : β}
    (hn : IsDeepest (fun p => p = [] ∨ Reaches M p) l n) (hv : M (l.take n) = some v) :
    IsLongestMatch M l (some v) :=
  ⟨l.take n, hv, List.take_prefix n l, fun _ hb hl =>
    (hn.prefix_take hl (Or.inr (Reaches.of_bound hb))).length_le⟩

/-- **The deepest prefix that begins a bound key gives the longest match exactly when `l` is
covered.** -/
theorem longest_iff_covered (M : List α → Option β) (l : List α) (n : Nat)
    (hn : IsDeepest (fun p => p = [] ∨ Reaches M p) l n) :
    IsLongestMatch M l (M (l.take n)) ↔ Covered (fun _ => True) M l := by
  constructor
  · intro h
    cases hv : M (l.take n) with
    | none =>
      rw [hv] at h
      rintro ⟨q, hq, hql⟩
      exact absurd (h q hql) hq
    | some v =>
      intro _ p _ _ hp hr
      have hb : M (l.take n) ≠ none := by rw [hv]; exact Option.some_ne_none v
      exact ⟨l.take n, hb, hn.prefix_take hp (Or.inr hr), List.take_prefix n l⟩
  · intro hc
    cases hv : M (l.take n) with
    | some v => exact longest_of_some hn hv
    | none =>
      intro key hkey
      by_contra hb
      have hpre := hn.prefix_take hkey (Or.inr (Reaches.of_bound hb))
      by_cases h0 : l.take n = []
      · have e : key = [] := List.prefix_nil.mp (h0 ▸ hpre)
        exact hb (e.trans h0.symm ▸ hv)
      · have hreach : Reaches M (l.take n) := hn.2.1.resolve_left h0
        obtain ⟨q, hq, hnq, hql⟩ := hc ⟨key, hb, hkey⟩ _ h0 trivial (List.take_prefix n l) hreach
        have hq' := hn.prefix_take hql (Or.inr (Reaches.of_bound hq))
        have e : q = l.take n := hq'.eq_of_length_le hnq.length_le
        exact hq (e ▸ hv)

end

/-! ## renaming the keys -/

section
variable {α β γ : Type*}

structure Coding (f : List α → List γ) (A : List α → Prop) (M : List α → Option β)
    (N : List γ → Option β) (l : List α) : Prop where
  nil_iff : ∀ p, A p → p <+: l → (f p = [] ↔ p = [])
  bound_mem : ∀ p, M p ≠ none → A p
  list_mono : ∀ p, A p → p <+: l → f p <+: f l
  list_surj : ∀ u, u <+: f l → ∃ p, A p ∧ p <+: l ∧ f p = u
  key_iff : ∀ p q, A p → A q → p <+: l → q <+: l → (f p <+: f q ↔ p <+: q)
  value_eq : ∀ p, A p → p <+: l → N (f p) = M p
  reach_iff : ∀ p, p ≠ [] → A p → p <+: l → (Reaches M p ↔ Reaches N (f p))

variable {f : List α → List γ} {A : List α → Prop} {M : List α → Option β}
  {N : List γ → Option β} {l : List α}

/-- bound prefixes of `l` and bound prefixes of `f l` -/
theorem Coding.bound_iff (h : Coding f A M N l) (P : List γ → Prop) :
    (∃ u, N u ≠ none ∧ u <+: f l ∧ P u) ↔ ∃ p, M p ≠ none ∧ p <+: l ∧ P (f p) := by
  constructor
  · rintro ⟨u, hu, hul, hP⟩
    obtain ⟨p, hA, hp, rfl⟩ := h.list_surj u hul
    exact ⟨p, h.value_eq p hA hp ▸ hu, hp, hP⟩
  · rintro ⟨p, hb, hp, hP⟩
    have hA := h.bound_mem p hb
    exact ⟨f p, (h.value_eq p hA hp).symm ▸ hb, h.list_mono p hA hp, hP⟩

theorem Coding.longest_iff (h : Coding f A M N l) (r : Option β) :
    IsLongestMatch M l r ↔ IsLongestMatch N (f l) r := by
  cases r with
  | none =>
    constructor
    · intro hM u hu
      obtain ⟨p, hA, hp, rfl⟩ := h.list_surj u hu
      exact (h.value_eq p hA hp).trans (hM p hp)
    · intro hN p hp
      by_contra hne
      have hA := h.bound_mem p hne
      exact hne ((h.value_eq p hA hp).symm.trans (hN (f p) (h.list_mono p hA hp)))
  | some v =>
    constructor
    · rintro ⟨key, hkey, hkl, hmax⟩
      have hA := h.bound_mem key (by rw [hkey]; exact Option.some_ne_none v)
      refine ⟨f key, (h.value_eq key hA hkl).trans hkey, h.list_mono key hA hkl, ?_⟩
      intro u hu hul
      obtain ⟨p, hpA, hpl, rfl⟩ := h.list_surj u hul
      have hlen := hmax p (h.value_eq p hpA hpl ▸ hu) hpl
      have hpre := List.prefix_of_prefix_length_le hpl hkl hlen
      exact ((h.key_iff p key hpA hA hpl hkl).mpr hpre).length_le
    · rintro ⟨u, hu, hul, hmax⟩
      obtain ⟨key, hA, hkl, rfl⟩ := h.list_surj u hul
      refine ⟨key, (h.value_eq key hA hkl).symm.trans hu, hkl, ?_⟩
      intro p hp hpl
      have hpA := h.bound_mem p hp
      have hpl' := h.list_mono p hpA hpl
      have hlen := hmax (f p) ((h.value_eq p hpA hpl).symm ▸ hp) hpl'
      have hpre := List.prefix_of_prefix_length_le hpl' hul hlen
      exact ((h.key_iff p key hpA hA hpl hkl).mp hpre).length_le

theorem Coding.covered_iff (h : Coding f A M N l) :
    Covered A M l ↔ Covered (fun _ => True) N (f l) := by
  have hsome : (∃ q, M q ≠ none ∧ q <+: l) ↔ ∃ u, N u ≠ none ∧ u <+: f l := by
    have hb := h.bound_iff fun _ => True
    simpa only [and_true] using hb.symm
  have hcont : ∀ p, A p → p <+: l → ((∃ q, M q ≠ none ∧ p <+: q ∧ q <+: l) ↔
      ∃ u, N u ≠ none ∧ f p <+: u ∧ u <+: f l) := by
    intro p hA hp
    have hb := h.bound_iff fun u => f p <+: u
    constructor
    · rintro ⟨q, hq, hpq, hql⟩
      obtain ⟨u, hu, hul, hpu⟩ :=
        hb.mpr ⟨q, hq, hql, (h.key_iff p q hA (h.bound_mem q hq) hp hql).mpr hpq⟩
      exact ⟨u, hu, hpu, hul⟩
    · rintro ⟨u, hu, hpu, hul⟩
      obtain ⟨q, hq, hql, hpq⟩ := hb.mp ⟨u, hu, hul, hpu⟩
      exact ⟨q, hq, (h.key_iff p q hA (h.bound_mem q hq) hp hql).mp hpq, hql⟩
  unfold Covered
  rw [hsome]
  refine imp_congr_right fun _ => ⟨fun hM u hne _ hu hr => ?_, fun hN p hne hA hp hr => ?_⟩
  · obtain ⟨p, hA, hp, rfl⟩ := h.list_surj u hu
    have hne' : p ≠ [] := fun e => hne ((h.nil_iff p hA hp).mpr e)
    exact (hcont p hA hp).mp (hM p hne' hA hp ((h.reach_iff p hne' hA hp).mpr hr))
  · have hne' : f p ≠ [] := fun e => hne ((h.nil_iff p hA hp).mp e)
    exact (hcont p hA hp).mpr
      (hN (f p) hne' trivial (h.list_mono p hA hp) ((h.reach_iff p hne hA hp).mp hr))

end

/-! ## chunks -/

section
variable {α : Type*}

def chunks (k : Nat) (l : List α) : List (List α) :=
  (List.range (l.length / k)).map fun i => (l.take ((i + 1) * k)).drop (i * k)

def alignedPrefixes (k : Nat) (l : List α) : List (List α) :=
  (List.range (l.length / k + 1)).map fun j => l.take (j * k)

@[simp] theorem length_chunks (k : Nat) (l : List α) : (chunks k l).length = l.length / k := by
  simp [chunks]

theorem chunks_take (k : Nat) (hk : 0 < k) (l : List α) (j : Nat) (hj : j ≤ l.length / k) :
    chunks k (l.take (j * k)) = (chunks k l).take j := by
  have hlen : (l.take (j * k)).length / k = j := by
    have h1 : j * k ≤ l.length := (Nat.le_div_iff_mul_le hk).mp hj
    rw [List.length_take, Nat.min_eq_left h1, Nat.mul_div_cancel j hk]
  unfold chunks
  rw [hlen, ← List.map_take, List.take_range, Nat.min_eq_left hj]
  apply List.map_congr_left
  intro i hi
  have h2 : (i + 1) * k ≤ j * k := Nat.mul_le_mul_right k (List.mem_range.mp hi)
  rw [List.take_take, Nat.min_eq_left h2]

theorem mem_alignedPrefixes (k : Nat) (hk : 0 < k) (l p : List α) :
    p ∈ alignedPrefixes k l ↔ p <+: l ∧ k ∣ p.length := by
  unfold alignedPrefixes
  rw [List.mem_map]
  constructor
  · rintro ⟨j, hj, rfl⟩
    have h1 : j * k ≤ l.length :=
      (Nat.le_div_iff_mul_le hk).mp (Nat.lt_succ_iff.mp (List.mem_range.mp hj))
    refine ⟨List.take_prefix _ _, ?_⟩
    rw [List.length_take, Nat.min_eq_left h1]
    exact Nat.dvd_mul_left k j
  · rintro ⟨hp, j, hj⟩
    refine ⟨j, List.mem_range.mpr (Nat.lt_succ_of_le ?_), ?_⟩
    · rw [Nat.le_div_iff_mul_le hk, Nat.mul_comm, ← hj]
      exact hp.length_le
    · rw [Nat.mul_comm, ← hj]
      exact (prefix_eq_take hp).symm

end

end Prefix
