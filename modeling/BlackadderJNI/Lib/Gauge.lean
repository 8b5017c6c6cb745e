import BlackadderJNI.Lib.Run
import Mathlib.Logic.Function.Basic

/-!
# A queue whose takers first measure its head

Taking is two steps: a taker notes a measure of the first item, and later takes what is then the
first item, which another taker may have brought to the front.

* `Gauge T α β`    the queue, the notes of the takers, and what was taken on which note;
* `step measure`   `put`, `note t`, `take t`, `drop t`, and steps of something else;
* `run_content`    what was taken, then what is queued, is what was put, in order;
* `run_noted`      a note is the measure of the item taken, or of one that was put before it;
* `run_exact`      the notes are exact when takers note one at a time.
-/

open Run

structure Gauge (T α β : Type*) where
  queue : List α
  notes : T → Option β
  /-- the note and the item of every take -/
  taken : List (β × α)

namespace Gauge
variable {T α β : Type*}

inductive Act (T α : Type*) where
  | put (a : α)
  | note (t : T)
  | take (t : T)
  | drop (t : T)
  | other

def Act.puts : Act T α → List α
  | .put a => [a]
  | _ => []

def empty : Gauge T α β := ⟨[], fun _ => none, []⟩

section
variable [DecidableEq T] (measure : α → β)

def step (s : Gauge T α β) : Act T α → Option (Gauge T α β)
  | .put a => some { s with queue := s.queue ++ [a] }
  | .note t =>
    match s.notes t, s.queue with
    | none, a :: _ => some { s with notes := Function.update s.notes t (some (measure a)) }
    | _, _ => none
  | .take t =>
    match s.notes t, s.queue with
    | some b, a :: rest =>
      some ⟨rest, Function.update s.notes t none, s.taken ++ [(b, a)]⟩
    | _, _ => none
  | .drop t =>
    match s.notes t with
    | some _ => some { s with notes := Function.update s.notes t none }
    | none => none
  | .other => some s

/-- what a step can do -/
inductive Effect (s s' : Gauge T α β) : Act T α → Prop
  | put (a : α) (eq : s' = { s with queue := s.queue ++ [a] }) : Effect s s' (.put a)
  | note (t : T) (a : α) (rest : List α) (free : s.notes t = none) (queue : s.queue = a :: rest)
      (eq : s' = { s with notes := Function.update s.notes t (some (measure a)) }) :
      Effect s s' (.note t)
  | take (t : T) (b : β) (a : α) (rest : List α) (noted : s.notes t = some b)
      (queue : s.queue = a :: rest)
      (eq : s' = ⟨rest, Function.update s.notes t none, s.taken ++ [(b, a)]⟩) :
      Effect s s' (.take t)
  | drop (t : T) (b : β) (noted : s.notes t = some b)
      (eq : s' = { s with notes := Function.update s.notes t none }) : Effect s s' (.drop t)
  | other (eq : s' = s) : Effect s s' .other

variable {measure}

theorem step_effect {s s' : Gauge T α β} {a : Act T α} (h : step measure s a = some s') :
    Effect measure s s' a := by
  cases a with
  | put a => exact .put a (Option.some.inj h).symm
  | note t =>
    dsimp only [step] at h
    split at h
    · next a rest hfree hqueue => exact .note t a rest hfree hqueue (Option.some.inj h).symm
    · cases h
  | take t =>
    dsimp only [step] at h
    split at h
    · next b a rest hnoted hqueue => exact .take t b a rest hnoted hqueue (Option.some.inj h).symm
    · cases h
  | drop t =>
    dsimp only [step] at h
    split at h
    · next b hnoted => exact .drop t b hnoted (Option.some.inj h).symm
    · cases h
  | other => exact .other (Option.some.inj h).symm

theorem Effect.step {s s' : Gauge T α β} {a : Act T α} (h : Effect measure s s' a) :
    step measure s a = some s' := by
  cases h with
  | put a eq => rw [eq, Gauge.step]
  | note t a rest free queue eq => simp only [Gauge.step, free, queue, eq]
  | take t b a rest noted queue eq => simp only [Gauge.step, noted, queue, eq]
  | drop t b noted eq => simp only [Gauge.step, noted, eq]
  | other eq => rw [eq, Gauge.step]

/-! ## what was put -/

/-- what was taken, then what is queued -/
def content (s : Gauge T α β) : List α := s.taken.map Prod.snd ++ s.queue

theorem step_content {s s' : Gauge T α β} {a : Act T α} (h : step measure s a = some s') :
    s'.content = s.content ++ a.puts := by
  cases step_effect h with
  | put a eq =>
    rw [eq]
    exact (List.append_assoc _ _ _).symm
  | take t b a rest _ queue eq =>
    rw [eq]
    show (s.taken ++ [(b, a)]).map Prod.snd ++ rest = s.taken.map Prod.snd ++ s.queue ++ []
    rw [queue]
    simp
  | note t a rest _ _ eq =>
    rw [eq]
    exact (List.append_nil _).symm
  | drop t b _ eq =>
    rw [eq]
    exact (List.append_nil _).symm
  | other eq =>
    rw [eq]
    exact (List.append_nil _).symm

theorem run_content {s : Gauge T α β} {as : List (Act T α)}
    (h : run (step measure) empty as = some s) : s.content = as.flatMap Act.puts := by
  refine run_hist (I := fun t done => t.content = done.flatMap Act.puts) rfl
    (fun t done a u ht ha => ?_) h
  rw [step_content ha, ht, List.flatMap_append, List.flatMap_singleton]

/-! ## what the notes say -/

/-- a note after a change of the notes of `t` -/
theorem mem_update {notes : T → Option β} {t u : T} {o : Option β} {b : β}
    (h : b ∈ Function.update notes t o u) : u = t ∧ b ∈ o ∨ u ≠ t ∧ b ∈ notes u := by
  rcases eq_or_ne u t with rfl | hu
  · rw [Function.update_self] at h
    exact Or.inl ⟨rfl, h⟩
  · rw [Function.update_of_ne hu] at h
    exact Or.inr ⟨hu, h⟩

/-- a note is the measure of something up to the front of the queue, and every take had such a
note -/
structure Noted (measure : α → β) (s : Gauge T α β) : Prop where
  notes : ∀ t, ∀ b ∈ s.notes t, ∃ a ∈ s.taken.map Prod.snd ++ s.queue.take 1, b = measure a
  taken : ∀ pre x post, s.taken = pre ++ x :: post →
    ∃ a ∈ pre.map Prod.snd ++ [x.2], x.1 = measure a

omit [DecidableEq T] in
theorem Noted.empty : Noted measure (empty : Gauge T α β) :=
  ⟨nofun, fun pre x post he => absurd he (by simp [Gauge.empty])⟩

theorem Noted.update {s : Gauge T α β} (hs : Noted measure s) (t : T) {o : Option β}
    (ho : ∀ b ∈ o, ∃ a ∈ s.taken.map Prod.snd ++ s.queue.take 1, b = measure a) :
    Noted measure { s with notes := Function.update s.notes t o } := by
  refine ⟨fun u b hb => ?_, hs.taken⟩
  rcases mem_update hb with ⟨_, hb⟩ | ⟨_, hb⟩
  · exact ho b hb
  · exact hs.notes u b hb

theorem Noted.step {s s' : Gauge T α β} {a : Act T α} (hs : Noted measure s)
    (h : step measure s a = some s') : Noted measure s' := by
  cases step_effect h with
  | put a eq =>
    rw [eq]
    refine ⟨fun t b hb => ?_, hs.taken⟩
    obtain ⟨c, hc, hbc⟩ := hs.notes t b hb
    refine ⟨c, ?_, hbc⟩
    rcases List.mem_append.mp hc with hc | hc
    · exact List.mem_append_left _ hc
    · refine List.mem_append_right _ ?_
      cases hq : s.queue with
      | nil => simp [hq] at hc
      | cons d rest => simpa [hq] using hc
  | note t a rest _ queue eq =>
    rw [eq]
    refine hs.update t fun b hb => ⟨a, ?_, (Option.some.inj hb).symm⟩
    rw [queue]
    simp
  | take t b a rest noted queue eq =>
    rw [eq]
    have hfront : s.queue.take 1 = [a] := by
      rw [queue]
      rfl
    have hseen : ∀ u, ∀ c ∈ s.notes u, ∃ d ∈ s.taken.map Prod.snd ++ [a], c = measure d :=
      fun u c hc => hfront ▸ hs.notes u c hc
    refine ⟨fun u c hc => ?_, fun pre x post he => ?_⟩
    · rcases mem_update hc with ⟨_, hc⟩ | ⟨_, hc⟩
      · cases hc
      · obtain ⟨d, hd, hcd⟩ := hseen u c hc
        refine ⟨d, List.mem_append_left _ ?_, hcd⟩
        simpa using hd
    · rcases List.eq_nil_or_concat post with rfl | ⟨post', y, rfl⟩
      · obtain ⟨rfl, hx⟩ := List.append_inj' he rfl
        cases hx
        exact hseen t b noted
      · rw [List.concat_eq_append, ← List.cons_append, ← List.append_assoc] at he
        exact hs.taken pre x post' (List.append_inj' he rfl).1
  | drop t b _ eq =>
    rw [eq]
    exact hs.update t nofun
  | other eq =>
    rw [eq]
    exact hs

/-- **A note is never of an item behind the one that is taken on it.** -/
theorem run_noted {s : Gauge T α β} {as : List (Act T α)}
    (h : run (step measure) empty as = some s) : Noted measure s :=
  run_inv (I := Noted measure) (fun _ _ _ hs ha => hs.step ha) Noted.empty h

/-! ## one taker at a time -/

/-- a taker notes only when nobody else has a note -/
def Alone (s : Gauge T α β) : Act T α → Prop
  | .note _ => ∀ u, s.notes u = none
  | _ => True

/-- at most one taker has a note, the measure of the head, and every note was exact -/
structure Exact (measure : α → β) (s : Gauge T α β) : Prop where
  single : ∀ t u, s.notes t ≠ none → s.notes u ≠ none → t = u
  front : ∀ t, ∀ b ∈ s.notes t, ∃ a rest, s.queue = a :: rest ∧ b = measure a
  taken : ∀ x ∈ s.taken, x.1 = measure x.2

omit [DecidableEq T] in
theorem Exact.empty : Exact measure (empty : Gauge T α β) :=
  ⟨fun _ _ ht => absurd rfl ht, nofun, nofun⟩

theorem Exact.step {s s' : Gauge T α β} {a : Act T α} (hs : Exact measure s) (ha : Alone s a)
    (h : step measure s a = some s') : Exact measure s' := by
  have clear : ∀ t b, s.notes t = some b → ∀ u, Function.update s.notes t none u = none := by
    intro t b hb u
    by_cases hu : u = t
    · rw [hu, Function.update_self]
    · rw [Function.update_of_ne hu]
      by_contra hne
      exact hu (hs.single u t hne (by rw [hb]; exact Option.some_ne_none b))
  cases step_effect h with
  | put a eq =>
    rw [eq]
    refine ⟨hs.single, fun t b hb => ?_, hs.taken⟩
    obtain ⟨c, rest, hq, hbc⟩ := hs.front t b hb
    refine ⟨c, rest ++ [a], ?_, hbc⟩
    show s.queue ++ [a] = _
    rw [hq]
    rfl
  | note t a rest _ queue eq =>
    rw [eq]
    have hother : ∀ u, u ≠ t → Function.update s.notes t (some (measure a)) u = none := by
      intro u hu
      rw [Function.update_of_ne hu]
      exact ha u
    refine ⟨fun u v hu hv => ?_, fun u b hb => ?_, hs.taken⟩
    · by_contra hne
      rcases eq_or_ne u t with rfl | hut
      · exact hv (hother v (Ne.symm hne))
      · exact hu (hother u hut)
    · rcases mem_update hb with ⟨_, hb⟩ | ⟨_, hb⟩
      · exact ⟨a, rest, queue, (Option.some.inj hb).symm⟩
      · exact absurd ((ha u).symm.trans hb) nofun
  | take t b a rest noted queue eq =>
    rw [eq]
    have hnone := clear t b noted
    refine ⟨fun u v hu _ => absurd (hnone u) hu, fun u c hc => ?_, fun x hx => ?_⟩
    · exact absurd ((hnone u).symm.trans hc) nofun
    · rcases List.mem_append.mp hx with hx | hx
      · exact hs.taken x hx
      · rw [List.mem_singleton.mp hx]
        obtain ⟨c, rest', hq, hbc⟩ := hs.front t b noted
        cases queue.symm.trans hq
        exact hbc
  | drop t b noted eq =>
    rw [eq]
    have hnone := clear t b noted
    refine ⟨fun u v hu _ => absurd (hnone u) hu, fun u c hc => ?_, hs.taken⟩
    exact absurd ((hnone u).symm.trans hc) nofun
  | other eq =>
    rw [eq]
    exact hs

/-- **One taker at a time measures what it takes.** -/
theorem run_exact {s : Gauge T α β} {as : List (Act T α)}
    (hC : Along (step measure) Alone empty as) (h : run (step measure) empty as = some s) :
    ∀ x ∈ s.taken, x.1 = measure x.2 :=
  (run_inv_along (I := Exact measure) (fun _ _ _ ha hs h => hs.step ha h) hC Exact.empty h).taken

end

end Gauge
