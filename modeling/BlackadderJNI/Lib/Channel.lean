import BlackadderJNI.Lib.Run

/-!
# A first-in first-out channel

What a queue between one side that puts and one side that takes is for: nothing is lost,
duplicated or reordered.  A model that simulates the channel inherits `run_order`.

* `Channel M`      what has been taken so far, and what is still pending;
* `step`           `put m` at the back, `take` at the front (not enabled when nothing is pending);
* `run_order`      taken, then pending, is what was there at the start, then what was put.
-/

open Run

structure Channel (M : Type*) where
  taken : List M
  pending : List M

namespace Channel
variable {M : Type*}

inductive Act (M : Type*) where
  | put (m : M)
  | take

def step (c : Channel M) : Act M → Option (Channel M)
  | .put m => some { c with pending := c.pending ++ [m] }
  | .take =>
    match c.pending with
    | [] => none
    | m :: rest => some ⟨c.taken ++ [m], rest⟩

def empty : Channel M := ⟨[], []⟩

/-- what a step puts into the channel -/
def Act.sent : Act M → List M
  | .put m => [m]
  | .take => []

def content (c : Channel M) : List M := c.taken ++ c.pending

theorem step_content {c d : Channel M} {a : Act M} (h : step c a = some d) :
    d.content = c.content ++ a.sent := by
  cases a with
  | put m =>
    cases h
    exact (List.append_assoc _ _ _).symm
  | take =>
    obtain ⟨taken, pending⟩ := c
    cases pending with
    | nil => cases h
    | cons m rest =>
      cases h
      simp [content, Act.sent]

theorem run_order {c d : Channel M} {as : List (Act M)} (h : run step c as = some d) :
    d.content = c.content ++ as.flatMap Act.sent := by
  refine run_hist (I := fun e done => e.content = c.content ++ done.flatMap Act.sent) (by simp)
    (fun e done a e' he ha => ?_) h
  rw [step_content ha, he, List.flatMap_append, List.append_assoc]
  simp

theorem run_puts (c : Channel M) (ms : List M) :
    run step c (ms.map .put) = some { c with pending := c.pending ++ ms } := by
  induction ms generalizing c with
  | nil => simp
  | cons m ms ih =>
    show run step { c with pending := c.pending ++ [m] } (ms.map .put) = _
    rw [ih, List.append_assoc]
    rfl

theorem run_take (taken : List M) (m : M) (rest : List M) :
    run step ⟨taken, m :: rest⟩ [.take] = some ⟨taken ++ [m], rest⟩ := rfl

end Channel
