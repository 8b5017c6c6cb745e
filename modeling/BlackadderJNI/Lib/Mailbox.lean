import BlackadderJNI.Lib.Run

/-!
# A mailbox with several senders

A sender first begins a call with its message, one at a time, and enters the mailbox in a later
step.  The order in the mailbox is that of the second steps; each sender still finds its own
messages there in the order of its calls.

* `Mailbox T M`   the calls that have not entered, what was taken, what is queued;
* `step`          `call t m`, `enter t m`, and `take` of the first message;
* `run_entered`   taken, then queued, is what entered, in its order;
* `run_program`   of each sender: taken, then queued, then pending, is what it called.
-/

open Run

structure Mailbox (T M : Type*) where
  pending : List (T × M)
  taken : List (T × M)
  queued : List (T × M)

namespace Mailbox
variable {T M : Type*}

inductive Act (T M : Type*) where
  | call (t : T) (m : M)
  | enter (t : T) (m : M)
  | take

/-- what a step begins -/
def Act.called : Act T M → List (T × M)
  | .call t m => [(t, m)]
  | _ => []

/-- what a step puts into the mailbox -/
def Act.entered : Act T M → List (T × M)
  | .enter t m => [(t, m)]
  | _ => []

def empty : Mailbox T M := ⟨[], [], []⟩

def content (b : Mailbox T M) : List (T × M) := b.taken ++ b.queued

/-- a sender has one call at a time -/
def Single (b : Mailbox T M) : Prop := (b.pending.map Prod.fst).Nodup

theorem single_empty : Single (empty : Mailbox T M) := List.nodup_nil

/-- the entries of the sender `t` -/
def ofSender [DecidableEq T] (t : T) (l : List (T × M)) : List M :=
  (l.filter fun e => e.1 = t).map Prod.snd

section
variable [DecidableEq T]

@[simp] theorem ofSender_nil (t : T) : ofSender t ([] : List (T × M)) = [] := rfl

@[simp] theorem ofSender_append (t : T) (l l' : List (T × M)) :
    ofSender t (l ++ l') = ofSender t l ++ ofSender t l' := by
  simp [ofSender]

theorem ofSender_cons (t : T) (e : T × M) (l : List (T × M)) :
    ofSender t (e :: l) = if e.1 = t then e.2 :: ofSender t l else ofSender t l := by
  by_cases h : e.1 = t <;> simp [ofSender, h]

theorem ofSender_map (t u : T) (l : List M) :
    ofSender t (l.map (u, ·)) = if u = t then l else [] := by
  by_cases h : u = t <;> simp [ofSender, h, List.filter_map, Function.comp_def]

theorem ofSender_eq_nil {t : T} {l : List (T × M)} (h : t ∉ l.map Prod.fst) :
    ofSender t l = [] := by
  have hf : l.filter (fun e => e.1 = t) = [] := by
    refine List.filter_eq_nil_iff.mpr fun e he => ?_
    have hne : e.1 ≠ t := fun e' => h (e' ▸ List.mem_map_of_mem he)
    simpa using hne
  rw [ofSender, hf, List.map_nil]

end

section
variable [DecidableEq T] [DecidableEq M]

def step (b : Mailbox T M) : Act T M → Option (Mailbox T M)
  | .call t m =>
    if t ∈ b.pending.map Prod.fst then none else some { b with pending := (t, m) :: b.pending }
  | .enter t m =>
    if (t, m) ∈ b.pending then
      some { b with pending := b.pending.erase (t, m), queued := b.queued ++ [(t, m)] }
    else none
  | .take =>
    match b.queued with
    | [] => none
    | e :: rest => some { b with taken := b.taken ++ [e], queued := rest }

theorem step_content {b c : Mailbox T M} {a : Act T M} (h : step b a = some c) :
    c.content = b.content ++ a.entered := by
  cases a with
  | call t m =>
    dsimp only [step] at h
    split at h
    · cases h
    · cases h
      exact (List.append_nil _).symm
  | enter t m =>
    dsimp only [step] at h
    split at h
    · cases h
      exact (List.append_assoc _ _ _).symm
    · cases h
  | take =>
    obtain ⟨pending, taken, queued⟩ := b
    cases queued with
    | nil => cases h
    | cons e rest =>
      cases h
      simp [content, Act.entered]

theorem run_entered {b c : Mailbox T M} {as : List (Act T M)} (h : run step b as = some c) :
    c.content = b.content ++ as.flatMap Act.entered := by
  refine run_hist (I := fun e done => e.content = b.content ++ done.flatMap Act.entered) (by simp)
    (fun e done a e' he ha => ?_) h
  rw [step_content ha, he, List.flatMap_append, List.append_assoc]
  simp

theorem single_step {b c : Mailbox T M} {a : Act T M} (hb : Single b) (h : step b a = some c) :
    Single c := by
  cases a with
  | call t m =>
    dsimp only [step] at h
    split at h
    · cases h
    · next ht =>
      cases h
      exact List.nodup_cons.mpr ⟨ht, hb⟩
  | enter t m =>
    dsimp only [step] at h
    split at h
    · cases h
      exact hb.sublist (List.erase_sublist.map Prod.fst)
    · cases h
  | take =>
    dsimp only [step] at h
    split at h
    · cases h
    · cases h
      exact hb

theorem run_single {c : Mailbox T M} {as : List (Act T M)} (h : run step empty as = some c) :
    Single c :=
  run_inv (fun _ _ _ => single_step) single_empty h

/-- the call that enters is the only one of its sender -/
theorem ofSender_erase {l : List (T × M)} (hl : (l.map Prod.fst).Nodup) {t : T} {m : M}
    (hm : (t, m) ∈ l) (u : T) : ofSender u l = ofSender u ((t, m) :: l.erase (t, m)) := by
  induction l with
  | nil => cases hm
  | cons e l ih =>
    rw [List.map_cons, List.nodup_cons] at hl
    by_cases he : e = (t, m)
    · rw [he, List.erase_cons_head]
    · have hm' : (t, m) ∈ l := (List.mem_cons.mp hm).resolve_left fun h => he h.symm
      have ht : e.1 ≠ t := fun h => hl.1 (h ▸ List.mem_map_of_mem hm')
      rw [List.erase_cons_tail (by simpa using he), ofSender_cons, ih hl.2 hm', ofSender_cons,
        ofSender_cons, ofSender_cons]
      dsimp only
      by_cases hu : t = u
      · have hne : e.1 ≠ u := fun h => ht (h.trans hu.symm)
        simp only [if_pos hu, if_neg hne]
      · simp only [if_neg hu]

theorem step_program {b c : Mailbox T M} {a : Act T M} (hb : Single b) (h : step b a = some c)
    (t : T) : ofSender t c.content ++ ofSender t c.pending =
      ofSender t b.content ++ ofSender t b.pending ++ ofSender t a.called := by
  rw [step_content h]
  cases a with
  | call u m =>
    dsimp only [step] at h
    split at h
    · cases h
    · next hu =>
      cases h
      simp only [Act.entered, Act.called, List.append_nil, ofSender_cons, ofSender_nil]
      by_cases ht : u = t
      · have hnone : ofSender t b.pending = [] := ofSender_eq_nil (ht ▸ hu)
        rw [if_pos ht, if_pos ht, hnone, List.append_nil]
      · rw [if_neg ht, if_neg ht, List.append_nil]
  | enter u m =>
    dsimp only [step] at h
    split at h
    · next hm =>
      cases h
      rw [ofSender_append, List.append_assoc, ← ofSender_append, ofSender_erase hb hm t]
      exact (List.append_nil _).symm
    · cases h
  | take =>
    dsimp only [step] at h
    split at h
    · cases h
    · cases h
      simp [Act.entered, Act.called]

theorem run_program {c : Mailbox T M} {as : List (Act T M)} (h : run step empty as = some c)
    (t : T) : ofSender t c.content ++ ofSender t c.pending =
      ofSender t (as.flatMap Act.called) := by
  refine (run_hist (I := fun b done => Single b ∧ ofSender t b.content ++ ofSender t b.pending =
    ofSender t (done.flatMap Act.called)) ⟨single_empty, rfl⟩ (fun b done a b' hb ha => ?_) h).2
  refine ⟨single_step hb.1 ha, ?_⟩
  rw [step_program hb.1 ha t, hb.2, ← ofSender_append, List.flatMap_append]
  simp

end

end Mailbox
