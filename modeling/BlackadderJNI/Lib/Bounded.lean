import BlackadderJNI.Lib.Channel
import Mathlib.Data.List.Perm.Basic

/-!
# A bounded queue that drops what finds it full

One side offers and never waits; the other side takes.  What is offered to a full queue is gone.

* `Bounded M`      what has been taken so far, what is pending, and what was dropped;
* `step`           `offer m` at the back or to the dropped ones, `take` at the front;
* `Merge l r m`    `m` is the lists `l` and `r` merged, each in its order;
* `run_merge`      what was offered is what went through merged with what was dropped;
* `run_bound`      the pending ones never exceed the capacity.
-/

open Run

structure Bounded (M : Type*) where
  taken : List M
  pending : List M
  dropped : List M

namespace Bounded
variable {M : Type*}

inductive Act (M : Type*) where
  | offer (m : M)
  | take

def empty : Bounded M := ⟨[], [], []⟩

/-- what has gone through, or will -/
def kept (q : Bounded M) : List M := q.taken ++ q.pending

def offer (capacity : Nat) (q : Bounded M) (m : M) : Bounded M :=
  if q.pending.length < capacity then { q with pending := q.pending ++ [m] }
  else { q with dropped := q.dropped ++ [m] }

def take (q : Bounded M) : Option (Bounded M) :=
  match q.pending with
  | [] => none
  | m :: rest => some ⟨q.taken ++ [m], rest, q.dropped⟩

def step (capacity : Nat) (q : Bounded M) : Act M → Option (Bounded M)
  | .offer m => some (offer capacity q m)
  | .take => take q

def Act.offered : Act M → List M
  | .offer m => [m]
  | .take => []

/-! ## merged lists -/

inductive Merge : List M → List M → List M → Prop
  | nil : Merge [] [] []
  | left {l r ms : List M} (m : M) (h : Merge l r ms) : Merge (l ++ [m]) r (ms ++ [m])
  | right {l r ms : List M} (m : M) (h : Merge l r ms) : Merge l (r ++ [m]) (ms ++ [m])

theorem Merge.sublist {l r ms : List M} (h : Merge l r ms) : l.Sublist ms := by
  induction h with
  | nil => exact List.Sublist.refl _
  | left m _ ih => exact ih.append (List.Sublist.refl [m])
  | right m _ ih => exact ih.trans (List.sublist_append_left _ _)

/-- nothing is lost and nothing is made twice -/
theorem Merge.perm {l r ms : List M} (h : Merge l r ms) : (l ++ r).Perm ms := by
  induction h with
  | nil => exact List.Perm.refl _
  | @left l r ms m _ ih =>
    rw [List.append_assoc]
    refine (List.perm_append_comm.append_left l).trans ?_
    rw [← List.append_assoc]
    exact ih.append_right [m]
  | right m _ ih =>
    rw [← List.append_assoc]
    exact ih.append_right [m]

theorem Merge.eq_of_right_nil {l ms : List M} (h : Merge l [] ms) : l = ms :=
  h.sublist.eq_of_length (by simpa using h.perm.length_eq)

/-! ## what a step does -/

theorem offer_room {capacity : Nat} {q : Bounded M} (m : M) (h : q.pending.length < capacity) :
    offer capacity q m = ⟨q.taken, q.pending ++ [m], q.dropped⟩ := if_pos h

theorem offer_full {capacity : Nat} {q : Bounded M} (m : M) (h : ¬ q.pending.length < capacity) :
    offer capacity q m = ⟨q.taken, q.pending, q.dropped ++ [m]⟩ := if_neg h

theorem take_some {q r : Bounded M} (h : take q = some r) :
    ∃ m, q.pending = m :: r.pending ∧ r.taken = q.taken ++ [m] ∧ r.dropped = q.dropped := by
  unfold take at h
  split at h
  · cases h
  · next m rest hq =>
    cases h
    exact ⟨m, hq, rfl, rfl⟩

theorem take_kept {q r : Bounded M} (h : take q = some r) : r.kept = q.kept := by
  obtain ⟨m, hp, ht, _⟩ := take_some h
  unfold kept
  rw [ht, hp, List.append_assoc]
  rfl

theorem step_merge {capacity : Nat} {q r : Bounded M} {a : Act M} {ms : List M}
    (hq : Merge q.kept q.dropped ms) (h : step capacity q a = some r) :
    Merge r.kept r.dropped (ms ++ a.offered) := by
  cases a with
  | offer m =>
    cases h
    by_cases hroom : q.pending.length < capacity
    · rw [offer_room m hroom]
      show Merge (q.taken ++ (q.pending ++ [m])) _ _
      rw [← List.append_assoc]
      exact .left m hq
    · rw [offer_full m hroom]
      exact .right m hq
  | take =>
    obtain ⟨_, _, _, hd⟩ := take_some h
    rw [take_kept h, hd]
    show Merge _ _ (ms ++ [])
    rw [List.append_nil]
    exact hq

theorem step_bound {capacity : Nat} {q r : Bounded M} {a : Act M}
    (hq : q.pending.length ≤ capacity) (h : step capacity q a = some r) :
    r.pending.length ≤ capacity := by
  cases a with
  | offer m =>
    cases h
    by_cases hroom : q.pending.length < capacity
    · rw [offer_room m hroom]
      show (q.pending ++ [m]).length ≤ capacity
      rw [List.length_append]
      exact hroom
    · rw [offer_full m hroom]
      exact hq
  | take =>
    obtain ⟨m, hp, _, _⟩ := take_some h
    rw [hp, List.length_cons] at hq
    omega

/-! ## whole runs -/

theorem run_merge {capacity : Nat} {q : Bounded M} {as : List (Act M)}
    (h : run (step capacity) empty as = some q) :
    Merge q.kept q.dropped (as.flatMap Act.offered) := by
  refine run_hist (I := fun r done => Merge r.kept r.dropped (done.flatMap Act.offered)) .nil
    (fun r done a t hr ha => ?_) h
  have hstep := step_merge hr ha
  rw [List.flatMap_append]
  simpa using hstep

theorem run_bound {capacity : Nat} {q : Bounded M} {as : List (Act M)}
    (h : run (step capacity) empty as = some q) : q.pending.length ≤ capacity :=
  run_inv (fun _ _ _ hr ha => step_bound hr ha) (Nat.zero_le _) h

end Bounded
