import Mathlib.Logic.Function.Basic
import Mathlib.Data.Set.Function
import Mathlib.Data.List.Induction
import Mathlib.Tactic.Common

/-!
# The map left by a history of writes

A history is a list of operations; operation `o` writes `val o` (`none` erases) at the key
`key o`.  The last write at a key wins.

* `replay key val ops`   the map after the history `ops`;
* `replay_last`          a binding comes from the last operation on its key;
* `replay_some`          so it comes from some operation of the history;
* `replay_comp`          keys may be renamed by `f` when `f` does not identify the key looked up
                         with another key of the history;
* `lastWrite`            what the last operation with a property writes;
* `LastAgree`            the last write under the coarse key leaves what the last write under
                         the fine key leaves; `lastAgree_iff` is this for the two maps.
-/

namespace Replay

variable {Op K K' V : Type*} [DecidableEq K] [DecidableEq K']

def replay (key : Op → K) (val : Op → Option V) (ops : List Op) : K → Option V :=
  ops.foldl (fun m o => Function.update m (key o) (val o)) fun _ => none

section
variable (key : Op → K) (val : Op → Option V)

theorem replay_snoc (ops : List Op) (o : Op) :
    replay key val (ops ++ [o]) = Function.update (replay key val ops) (key o) (val o) := by
  simp [replay]

theorem replay_snoc_self (ops : List Op) (o : Op) :
    replay key val (ops ++ [o]) (key o) = val o := by
  rw [replay_snoc, Function.update_self]

theorem replay_snoc_ne (ops : List Op) (o : Op) {k : K} (h : k ≠ key o) :
    replay key val (ops ++ [o]) k = replay key val ops k := by
  rw [replay_snoc, Function.update_of_ne h]

theorem replay_last {ops : List Op} {k : K} {v : V} (h : replay key val ops k = some v) :
    ∃ pre o post, ops = pre ++ o :: post ∧ key o = k ∧ val o = some v ∧
      ∀ o' ∈ post, key o' ≠ k := by
  induction ops using List.reverseRecOn with
  | nil => cases h
  | append_singleton ops o ih =>
    by_cases hk : k = key o
    · subst hk
      rw [replay_snoc_self] at h
      exact ⟨ops, o, [], rfl, rfl, h, nofun⟩
    · rw [replay_snoc_ne key val ops o hk] at h
      obtain ⟨pre, o', post, rfl, hkey, hval, hpost⟩ := ih h
      refine ⟨pre, o', post ++ [o], by simp, hkey, hval, fun q hq => ?_⟩
      rcases List.mem_append.mp hq with hq | hq
      · exact hpost q hq
      · rw [List.mem_singleton.mp hq]
        exact fun e => hk e.symm

theorem replay_some {ops : List Op} {k : K} {v : V} (h : replay key val ops k = some v) :
    ∃ o ∈ ops, key o = k ∧ val o = some v := by
  obtain ⟨pre, o, post, rfl, hkey, hval, _⟩ := replay_last key val h
  exact ⟨o, by simp, hkey, hval⟩

theorem replay_ne_none {ops : List Op} {k : K} (h : replay key val ops k ≠ none) :
    ∃ o ∈ ops, key o = k := by
  obtain ⟨v, hv⟩ := Option.ne_none_iff_exists'.mp h
  obtain ⟨o, ho, hk, _⟩ := replay_some key val hv
  exact ⟨o, ho, hk⟩

/-- renaming the keys by `f`, at a key that `f` does not identify with another one of the
history -/
theorem replay_comp (f : K → K') (ops : List Op) (k : K)
    (hf : ∀ o ∈ ops, f (key o) = f k → key o = k) :
    replay (fun o => f (key o)) val ops (f k) = replay key val ops k := by
  induction ops using List.reverseRecOn with
  | nil => rfl
  | append_singleton ops o ih =>
    have ih' := ih fun o' ho' => hf o' (by simp [ho'])
    rw [replay_snoc, replay_snoc]
    by_cases hk : k = key o
    · subst hk
      rw [Function.update_self, Function.update_self]
    · have hfk : f k ≠ f (key o) := fun e => hk (hf o (by simp) e.symm).symm
      rw [Function.update_of_ne hk, Function.update_of_ne hfk, ih']

/-- what the last operation that satisfies `p` writes -/
def lastWrite (p : Op → Bool) (ops : List Op) : Option V := (ops.reverse.find? p).bind val

theorem lastWrite_snoc (p : Op → Bool) (ops : List Op) (o : Op) :
    lastWrite val p (ops ++ [o]) = if p o then val o else lastWrite val p ops := by
  unfold lastWrite
  rw [List.reverse_append]
  show (List.find? p (o :: ops.reverse)).bind val = _
  rw [List.find?_cons]
  cases p o with
  | true => rfl
  | false => rfl

theorem replay_eq_lastWrite (ops : List Op) (k : K) :
    replay key val ops k = lastWrite val (fun o => key o = k) ops := by
  induction ops using List.reverseRecOn with
  | nil => rfl
  | append_singleton ops o ih =>
    rw [lastWrite_snoc]
    by_cases hk : k = key o
    · subst hk
      rw [replay_snoc_self, if_pos (decide_eq_true rfl)]
    · have hk' : ¬ decide (key o = k) = true := by simpa using fun e => hk e.symm
      rw [replay_snoc_ne key val ops o hk, if_neg hk', ih]

/-- the last write at the coarse key `f k` leaves what the last write at `k` itself leaves -/
def LastAgree (f : K → K') (ops : List Op) (k : K) : Prop :=
  lastWrite val (fun o => f (key o) = f k) ops = lastWrite val (fun o => key o = k) ops

instance [DecidableEq V] (f : K → K') (ops : List Op) (k : K) :
    Decidable (LastAgree key val f ops k) :=
  inferInstanceAs (Decidable (lastWrite val (fun o => f (key o) = f k) ops =
    lastWrite val (fun o => key o = k) ops))

theorem lastAgree_iff (f : K → K') (ops : List Op) (k : K) :
    LastAgree key val f ops k ↔
      replay (fun o => f (key o)) val ops (f k) = replay key val ops k := by
  rw [replay_eq_lastWrite, replay_eq_lastWrite]
  rfl

end

end Replay
