import Mathlib.Data.List.Basic
import Mathlib.Tactic.Common

/-!
# Lists cut into segments of one length

* `segments k l`        the whole `k`-segments of `l`, from the left;
* `snoc_induction`      a list of whole segments, one segment after the other;
* `separate sep k l`    each segment with `sep` before it;
* `separate_injective`  the separated list determines the list.
-/

namespace Segments

variable {α β : Type*}

def segments (k : Nat) (l : List α) : List (List α) :=
  (List.range (l.length / k)).map fun i => (l.drop (i * k)).take k

def separate (sep : α) (k : Nat) (l : List α) : List α := (segments k l).flatMap fun s => sep :: s

@[elab_as_elim]
theorem snoc_induction {k : Nat} (hk : 0 < k) {motive : List α → Prop} (nil : motive [])
    (snoc : ∀ l s : List α, k ∣ l.length → s.length = k → motive l → motive (l ++ s))
    (l : List α) (hl : k ∣ l.length) : motive l := by
  obtain ⟨n, hn⟩ := hl
  induction n generalizing l with
  | zero =>
    have h0 : l = [] := List.eq_nil_of_length_eq_zero (by simpa using hn)
    exact h0 ▸ nil
  | succ n ih =>
    have hn' : l.length = k * n + k := by rw [hn, Nat.mul_succ]
    have hinit : (l.take (k * n)).length = k * n := List.length_take_of_le (by omega)
    have hlast : (l.drop (k * n)).length = k := by
      rw [List.length_drop]
      omega
    rw [← List.take_append_drop (k * n) l]
    exact snoc _ _ ⟨n, hinit⟩ hlast (ih _ hinit)

@[simp] theorem segments_nil (k : Nat) : segments k ([] : List α) = [] := by
  simp [segments]

theorem segments_append {k : Nat} (hk : 0 < k) {l s : List α} (hl : k ∣ l.length)
    (hs : s.length = k) : segments k (l ++ s) = segments k l ++ [s] := by
  obtain ⟨n, hn⟩ := hl
  have hdiv : l.length / k = n := by rw [hn, Nat.mul_div_cancel_left n hk]
  have hdiv' : (l ++ s).length / k = n + 1 := by
    rw [List.length_append, hs, hn, ← Nat.mul_succ, Nat.mul_div_cancel_left _ hk]
  unfold segments
  rw [hdiv, hdiv', List.range_succ, List.map_append, List.map_singleton]
  refine congrArg₂ (· ++ ·) (List.map_congr_left fun i hi => ?_) ?_
  · have hin : i * k + k ≤ l.length := by
      rw [hn, ← Nat.succ_mul, Nat.mul_comm k n]
      exact Nat.mul_le_mul_right k (List.mem_range.1 hi)
    rw [List.drop_append_of_le_length (by omega),
      List.take_append_of_le_length (by rw [List.length_drop]; omega)]
  · have hlen : n * k = l.length := by rw [hn, Nat.mul_comm]
    rw [hlen, List.drop_left, ← hs, List.take_length]

/-- a code of `c` items for each item maps segments to segments -/
theorem segments_flatMap {k c : Nat} (hk : 0 < k) (hc : 0 < c) {f : α → List β}
    (hf : ∀ x, (f x).length = c) {l : List α} (hl : k ∣ l.length) :
    segments (c * k) (l.flatMap f) = (segments k l).map fun s => s.flatMap f := by
  have hlen : ∀ s : List α, (s.flatMap f).length = c * s.length := fun s => by
    induction s with
    | nil => rfl
    | cons x s ih =>
      rw [List.flatMap_cons, List.length_append, ih, hf, List.length_cons, Nat.mul_succ]
      omega
  refine snoc_induction hk (by simp) (fun l s hl hs ih => ?_) l hl
  have hl' : c * k ∣ (l.flatMap f).length := by
    rw [hlen]
    exact Nat.mul_dvd_mul_left c hl
  have hs' : (s.flatMap f).length = c * k := by rw [hlen, hs]
  rw [List.flatMap_append, segments_append (Nat.mul_pos hc hk) hl' hs', ih,
    segments_append hk hl hs, List.map_append]
  rfl

@[simp] theorem separate_nil (sep : α) (k : Nat) : separate sep k [] = [] := by
  simp [separate]

theorem separate_append (sep : α) {k : Nat} (hk : 0 < k) {l s : List α} (hl : k ∣ l.length)
    (hs : s.length = k) : separate sep k (l ++ s) = separate sep k l ++ sep :: s := by
  unfold separate
  rw [segments_append hk hl hs, List.flatMap_append, List.flatMap_singleton]

/-- leaving out the separators gives the list back -/
theorem filter_separate [DecidableEq α] {sep : α} {k : Nat} (hk : 0 < k) {l : List α}
    (hl : k ∣ l.length) (hsep : sep ∉ l) : (separate sep k l).filter (· ≠ sep) = l := by
  revert hsep
  refine snoc_induction hk (by simp) (fun l s hl hs ih hsep => ?_) l hl
  have hl' : sep ∉ l := fun h => hsep (List.mem_append_left s h)
  have hs' : ∀ x ∈ s, decide (x ≠ sep) = true := fun x hx =>
    decide_eq_true fun he => hsep (List.mem_append_right l (he ▸ hx))
  rw [separate_append sep hk hl hs, List.filter_append, ih hl',
    List.filter_cons_of_neg (by simp), List.filter_eq_self.2 hs']

theorem separate_injective [DecidableEq α] {sep : α} {k : Nat} (hk : 0 < k) {l m : List α}
    (hl : k ∣ l.length) (hm : k ∣ m.length) (hsl : sep ∉ l) (hsm : sep ∉ m)
    (h : separate sep k l = separate sep k m) : l = m := by
  rw [← filter_separate hk hl hsl, h, filter_separate hk hm hsm]

end Segments
