import BlackadderJNI.Lib.Run
import Mathlib.Data.List.Nodup

/-!
# Resources that are acquired and released

What an owner of resources owes: a resource is acquired before it is released, and released at
most once.  A program that simulates the ledger inherits `run_sound`.

* `Ledger R`     what has been acquired and what has been released so far;
* `step`         `acquire r` for a resource not seen before, `release r` for a live one;
* `run_sound`    nothing is released twice, and only what was acquired.
-/

open Run

structure Ledger (R : Type*) where
  acquired : List R
  released : List R

namespace Ledger
variable {R : Type*}

inductive Act (R : Type*) where
  | acquire (r : R)
  | release (r : R)
  deriving DecidableEq

def empty : Ledger R := ⟨[], []⟩

def Live (l : Ledger R) (r : R) : Prop := r ∈ l.acquired ∧ r ∉ l.released

instance [DecidableEq R] (l : Ledger R) (r : R) : Decidable (l.Live r) :=
  inferInstanceAs (Decidable (_ ∧ _))

section
variable [DecidableEq R]

def step (l : Ledger R) : Act R → Option (Ledger R)
  | .acquire r => if r ∈ l.acquired then none else some { l with acquired := l.acquired ++ [r] }
  | .release r => if l.Live r then some { l with released := l.released ++ [r] } else none

theorem step_acquire {l : Ledger R} {r : R} (h : r ∉ l.acquired) :
    step l (.acquire r) = some ⟨l.acquired ++ [r], l.released⟩ := if_neg h

theorem step_release {l : Ledger R} {r : R} (h : l.Live r) :
    step l (.release r) = some ⟨l.acquired, l.released ++ [r]⟩ := if_pos h

/-- what a step can do -/
theorem step_cases {l l' : Ledger R} {a : Act R} (h : step l a = some l') :
    (∃ r, a = .acquire r ∧ r ∉ l.acquired ∧ l' = ⟨l.acquired ++ [r], l.released⟩) ∨
    (∃ r, a = .release r ∧ l.Live r ∧ l' = ⟨l.acquired, l.released ++ [r]⟩) := by
  cases a with
  | acquire r =>
    obtain ⟨hr, e⟩ := Option.ite_none_left_eq_some.mp h
    exact Or.inl ⟨r, rfl, hr, (Option.some.inj e).symm⟩
  | release r =>
    obtain ⟨hr, e⟩ := Option.ite_none_right_eq_some.mp h
    exact Or.inr ⟨r, rfl, hr, (Option.some.inj e).symm⟩

/-- every released resource was acquired, and none was released twice -/
structure Sound (l : Ledger R) : Prop where
  acquired : ∀ r ∈ l.released, r ∈ l.acquired
  nodup : l.released.Nodup

theorem Sound.step {l l' : Ledger R} {a : Act R} (hl : l.Sound) (h : step l a = some l') :
    l'.Sound := by
  rcases step_cases h with ⟨r, rfl, _, rfl⟩ | ⟨r, rfl, hr, rfl⟩
  · exact ⟨fun q hq => List.mem_append_left _ (hl.acquired q hq), hl.nodup⟩
  · refine ⟨fun q hq => ?_, ?_⟩
    · rcases List.mem_append.mp hq with hq | hq
      · exact hl.acquired q hq
      · rw [List.mem_singleton.mp hq]
        exact hr.1
    · rw [List.nodup_append]
      refine ⟨hl.nodup, List.nodup_singleton r, fun q hq q' hq' e => ?_⟩
      rw [e, List.mem_singleton.mp hq'] at hq
      exact hr.2 hq

theorem run_sound {as : List (Act R)} {l : Ledger R} (h : run step empty as = some l) :
    l.Sound :=
  run_inv (fun _ _ _ hl ha => hl.step ha)
    ⟨fun _ hr => absurd hr List.not_mem_nil, List.nodup_nil⟩ h

end

end Ledger
