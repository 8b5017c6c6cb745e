import BlackadderJNI.Native.SendOrder

/-!
# Waiting for room in `output_queue`

A producer waits on `queue_overflow_cond` when its own push makes the queue 1000 long; the selector
signals the condition once when the queue becomes empty.

* `WaitEffect`          what one step does to the queue and to the threads that wait;
* `Overloads`           the queue becomes empty while two producers wait;
* `never_stranded`      without such a step no producer is left waiting on an empty queue, and
                        after one some producer may be;
* `Parked`              a producer that waits at the limit, or was woken there spuriously;
* `limit_iff`           the queue never exceeds 1000 messages exactly when nobody pushes then;
* `single_producer_limit`, `single_serves`   one producer alone, without spurious wake-ups, keeps
                        the limit and is never left waiting.
-/

namespace BA
namespace SendPath
open Run

variable {M : Type}

/-! ## what a step does to the threads that wait -/

/-- the cases are those of the condition variable: nobody is concerned, somebody waits, leaves
without a signal, or the queue becomes empty -/
inductive WaitEffect (s s' : State M) : Act M → Prop
  | push (t : Tid) (msg : M) (idle : t ∉ s.waiting)
      (queue : s'.outputQueue = s.outputQueue ++ [msg])
      (waiting : s'.waiting =
        if s.outputQueue.length + 1 = 1000 then t :: s.waiting else s.waiting) :
      WaitEffect s s' (.enqueue t msg)
  | spurious (t : Tid) (queue : s'.outputQueue = s.outputQueue)
      (waiting : s'.waiting = s.waiting.erase t) : WaitEffect s s' (.spurious t)
  /-- no thread waits or leaves; a message may be accepted, but not the last one -/
  | same {a : Act M} (queue : s'.outputQueue = s.outputQueue ∨
      ∃ msg, s.outputQueue = msg :: s'.outputQueue ∧ s'.outputQueue ≠ [])
      (waiting : s'.waiting = s.waiting) : WaitEffect s s' a
  | emptied (ret : Int) (wake : Option Tid) (pos : 0 < ret) (pc : s.pc = .testWrite)
      (mem : .sock ∈ s.writeSet) (one : s.outputQueue.length = 1) (nil : s'.outputQueue = [])
      (signal : (wake = none ∧ s.waiting = [] ∧ s'.waiting = []) ∨
        ∃ t, wake = some t ∧ t ∈ s.waiting ∧ s'.waiting = s.waiting.erase t ∧
          s'.woken = t :: s.woken) :
      WaitEffect s s' (.send ret wake)

theorem enqueue_wait {s s' : State M} {t : Tid} {msg : M} (h : enqueue s t msg = some s') :
    WaitEffect s s' (.enqueue t msg) := by
  unfold enqueue at h
  split at h
  · cases h
  · next hidle =>
    cases h
    refine .push t msg (fun hw => hidle (Or.inl hw)) rfl ?_
    simp only [List.length_append, List.length_singleton]

theorem spurious_eff {s s' : State M} {t : Tid} (h : spurious s t = some s') :
    t ∈ s.waiting ∧ s' = { s with waiting := s.waiting.erase t, woken := t :: s.woken } := by
  obtain ⟨ht, e⟩ := Option.ite_none_right_eq_some.mp h
  exact ⟨ht, (Option.some.inj e).symm⟩

/-- the last message goes out, and one waiting thread is woken -/
theorem leave_empty {s s' : State M} {wake : Option Tid} (hq : s.outputQueue = [])
    (h : leave s wake = some s') :
    s'.outputQueue = [] ∧ ((wake = none ∧ s.waiting = [] ∧ s'.waiting = []) ∨
      ∃ t, wake = some t ∧ t ∈ s.waiting ∧ s'.waiting = s.waiting.erase t ∧
        s'.woken = t :: s.woken) := by
  unfold leave at h
  rw [if_neg (by simp [hq])] at h
  cases wake with
  | none =>
    obtain ⟨hw, e⟩ := Option.ite_none_right_eq_some.mp h
    cases e
    exact ⟨hq, Or.inl ⟨rfl, hw, hw⟩⟩
  | some t =>
    obtain ⟨ht, e⟩ := spurious_eff h
    cases e
    exact ⟨hq, Or.inr ⟨t, rfl, ht, rfl, rfl⟩⟩

theorem leave_more {s s' : State M} {wake : Option Tid} (hq : s.outputQueue ≠ [])
    (h : leave s wake = some s') : s'.outputQueue = s.outputQueue ∧ s'.waiting = s.waiting := by
  unfold leave at h
  rw [if_pos (List.length_pos_iff.mpr hq)] at h
  cases h
  exact ⟨rfl, rfl⟩

theorem send_wait {s s' : State M} {ret : Int} {wake : Option Tid}
    (h : send s ret wake = some s') : WaitEffect s s' (.send ret wake) := by
  unfold send at h
  split at h
  · cases h
  next hpc =>
  split at h
  · next hmem =>
    cases hq : s.outputQueue with
    | nil =>
      rw [hq] at h
      cases h
      exact .same (Or.inl hq.symm) rfl
    | cons msg rest =>
      rw [hq] at h
      dsimp only at h
      split at h
      · next hret =>
        cases rest with
        | nil =>
          obtain ⟨hnil, hsignal⟩ := leave_empty rfl h
          exact .emptied ret wake hret (not_not.mp hpc) hmem (by rw [hq]; rfl) hnil hsignal
        | cons msg' rest =>
          obtain ⟨hq', hw⟩ := leave_more (List.cons_ne_nil _ _) h
          exact .same (Or.inr ⟨msg, by rw [hq, hq'], by rw [hq']; exact List.cons_ne_nil _ _⟩) hw
      · obtain ⟨hq', hw⟩ := leave_more (by rw [hq]; exact List.cons_ne_nil _ _) h
        exact .same (Or.inl hq') hw
  · cases h
    exact .same (Or.inl rfl) rfl

theorem step_wait {s s' : State M} {a : Act M} (h : step s a = some s') : WaitEffect s s' a := by
  cases a with
  | enqueue t msg => exact enqueue_wait h
  | resume t =>
    obtain ⟨_, e⟩ := Option.ite_none_right_eq_some.mp h
    cases e
    exact .same (Or.inl rfl) rfl
  | spurious t =>
    obtain ⟨_, e⟩ := spurious_eff h
    cases e
    exact .spurious t rfl rfl
  | selectError =>
    obtain ⟨_, e⟩ := Option.ite_none_right_eq_some.mp h
    cases e
    exact .same (Or.inl rfl) rfl
  | select r w =>
    obtain ⟨_, e⟩ := select_eff h
    rw [e]
    exact .same (Or.inl rfl) rfl
  | readPipe =>
    rcases readPipe_eff h with ⟨_, _, e⟩ | ⟨_, e⟩
    · rw [e]
      exact .same (Or.inl rfl) rfl
    · rw [e]
      exact .same (Or.inl rfl) rfl
  | receive =>
    rw [receive_eff h]
    exact .same (Or.inl rfl) rfl
  | send ret wake => exact send_wait h
  | rearm =>
    rw [rearm_eff h]
    exact .same (Or.inl rfl) rfl

/-! ## threads left behind -/

/-- a producer waits for room in an empty queue, and no wake-up is on its way -/
def Stranded (s : State M) : Prop := s.outputQueue = [] ∧ s.woken = [] ∧ s.waiting ≠ []

/-- the socket accepts the last message while two producers wait: only one is woken -/
def Overloads (s : State M) : Act M → Prop
  | .send ret _ => s.pc = .testWrite ∧ .sock ∈ s.writeSet ∧ 0 < ret ∧
      s.outputQueue.length = 1 ∧ 2 ≤ s.waiting.length
  | _ => False

instance (s : State M) : ∀ a, Decidable (Overloads s a)
  | .send ret _ => inferInstanceAs (Decidable (s.pc = .testWrite ∧ .sock ∈ s.writeSet ∧ 0 < ret ∧
      s.outputQueue.length = 1 ∧ 2 ≤ s.waiting.length))
  | .enqueue _ _ | .resume _ | .spurious _ | .selectError | .select _ _ | .readPipe | .receive
  | .rearm => isFalse id

/-- **A step that does not overload** keeps an empty queue without waiting threads. -/
theorem served_step {s s' : State M} {a : Act M} (hn : ¬ Overloads s a)
    (hs : s.outputQueue = [] → s.waiting = []) (h : step s a = some s') :
    s'.outputQueue = [] → s'.waiting = [] := by
  intro hnil
  cases step_wait h with
  | push t msg _ queue _ =>
    rw [queue] at hnil
    exact absurd hnil (by simp)
  | spurious t queue waiting =>
    rw [waiting, hs (queue ▸ hnil)]
    rfl
  | same queue waiting =>
    rw [waiting]
    rcases queue with hq | ⟨msg, _, hne⟩
    · exact hs (hq ▸ hnil)
    · exact absurd hnil hne
  | emptied ret wake pos pc mem one _ signal =>
    rcases signal with ⟨_, _, hw⟩ | ⟨t, _, ht, hw, _⟩
    · exact hw
    · have hlt : ¬ 2 ≤ s.waiting.length := fun hle => hn ⟨pc, mem, pos, one, hle⟩
      rw [hw]
      apply List.eq_nil_of_length_eq_zero
      rw [List.length_erase_of_mem ht]
      omega

/-- every woken thread runs -/
theorem run_resume (s : State M) :
    run step s (s.woken.map .resume) = some { s with woken := [] } := by
  obtain ⟨readSet, writeSet, pipe, outputQueue, pc, waiting, woken, wire⟩ := s
  induction woken with
  | nil => rfl
  | cons t woken ih =>
    show (resume _ t).bind _ = _
    unfold resume
    rw [if_pos List.mem_cons_self, List.erase_cons_head]
    exact ih

theorem overload_nil {s s' : State M} {a : Act M} (hn : Overloads s a)
    (h : step s a = some s') : s.outputQueue ≠ [] ∧ s'.outputQueue = [] := by
  cases a with
  | send ret wake =>
    obtain ⟨pc, mem, pos, one, _⟩ := hn
    refine ⟨List.ne_nil_of_length_pos (by omega), ?_⟩
    rcases queue_step h with ⟨msg, _, hq, _, _⟩ | ⟨hnone, _, _⟩
    · rw [hq] at one
      exact List.eq_nil_of_length_eq_zero (Nat.succ.inj one)
    · have hacc : accepted s (.send ret wake) = s.outputQueue.head? := if_pos ⟨pc, mem, pos⟩
      rw [hacc, List.head?_eq_none_iff] at hnone
      rw [hnone] at one
      cases one
  | _ => exact hn.elim

/-- after a step that overloads, the threads that run leave one behind -/
theorem overload_strands {s s' : State M} {a : Act M} (hn : Overloads s a)
    (h : step s a = some s') :
    ∃ u, run step s' (s'.woken.map .resume) = some u ∧ Stranded u := by
  obtain ⟨hne, hnil⟩ := overload_nil hn h
  refine ⟨_, run_resume s', hnil, rfl, ?_⟩
  show s'.waiting ≠ []
  cases step_wait h with
  | push => exact hn.elim
  | spurious => exact hn.elim
  | same queue waiting =>
    rcases queue with hq | ⟨_, _, hq⟩
    · exact absurd (hq ▸ hnil) hne
    · exact absurd hnil hq
  | emptied ret wake pos pc mem one nil signal =>
    obtain ⟨_, _, _, _, hlen⟩ := hn
    rcases signal with ⟨_, hw, _⟩ | ⟨t, _, ht, hw, _⟩
    · rw [hw] at hlen
      exact absurd hlen (by decide)
    · rw [hw]
      apply List.ne_nil_of_length_pos
      rw [List.length_erase_of_mem ht]
      omega

/-- **When a producer is left waiting on an empty queue.**  In a run where the queue never becomes
empty while two producers wait, it does not happen; and after every step where it does, letting
the woken threads run leaves one. -/
theorem never_stranded (as : List (Act M)) (s : State M) (h : run step init as = some s) :
    (Along step (fun t a => ¬ Overloads t a) init as → ¬ Stranded s) ∧
    (∀ a t, Overloads s a → step s a = some t →
      ∃ u, run step t (t.woken.map .resume) = some u ∧ Stranded u) := by
  constructor
  · intro hC hs
    have hinv := run_inv_along (I := fun t : State M => t.outputQueue = [] → t.waiting = [])
      (fun t a u hn hI hu => served_step hn hI hu) hC (fun _ => rfl) h
    exact hs.2.2 (hinv hs.1)
  · exact fun a t hn ht => overload_strands hn ht

/-! ## the limit of 1000 -/

/-- After `done`, in the state `s`: the own push of `u` made the queue 1000 long and `u` parked,
nothing was sent since, and `u` still waits or was woken spuriously. -/
def Parked (done : List (Act M)) (s : State M) (u : Tid) : Prop :=
  ∃ pre msg mid p, done = pre ++ .enqueue u msg :: mid ∧
    run step init (pre ++ [.enqueue u msg]) = some p ∧ u ∈ p.waiting ∧ s.wire = p.wire ∧
    (u ∈ s.waiting ∨ .spurious u ∈ mid)

/-- somebody pushes while a producer is parked at the limit, or was woken there spuriously -/
def Crowds (as : List (Act M)) : Prop :=
  ∃ done t msg post s u, as = done ++ .enqueue t msg :: post ∧ run step init done = some s ∧
    Parked done s u

/-- only the push that makes the queue 1000 long parks its producer -/
theorem parks_full {s s' : State M} {u : Tid} {msg : M} (h : step s (.enqueue u msg) = some s')
    (hu : u ∈ s'.waiting) : s'.outputQueue.length = 1000 := by
  have hq := (enqueue_eff h).1
  dsimp only [step] at h
  unfold enqueue at h
  split at h
  · cases h
  · next hidle =>
    cases h
    dsimp only at hu ⊢
    split at hu
    · next hfull => exact hfull
    · exact absurd (Or.inl hu) hidle

/-- the messages pushed so far -/
def content (s : State M) : Nat := s.wire.length + s.outputQueue.length

theorem content_step {s s' : State M} {a : Act M} (h : step s a = some s') :
    content s ≤ content s' := by
  unfold content
  obtain ⟨msg, _, hq, hwire, _⟩ | ⟨_, hq, hwire⟩ := queue_step h
  · rw [hq, hwire, List.length_append, List.length_cons, List.length_singleton]
    omega
  · rw [hq, hwire, List.length_append]
    omega

/-- as long as nothing is sent, the queue stays full -/
theorem Parked.full {done : List (Act M)} {s : State M} {u : Tid} (h : Parked done s u)
    (hs : run step init done = some s) : 1000 ≤ s.outputQueue.length := by
  obtain ⟨pre, msg, mid, p, rfl, hp, hu, hwire, _⟩ := h
  obtain ⟨m, hm, hpush⟩ := Option.bind_eq_some_iff.mp ((run_append _ _ _ _).symm.trans hp)
  obtain ⟨p', hp', hnil⟩ := run_cons_some _ hpush
  cases hnil
  have hfull := parks_full hp' hu
  have hmid : run step p mid = some s := by
    rw [List.append_cons, run_append, hp] at hs
    exact hs
  have hle : content p ≤ content s :=
    run_inv (I := fun t => content p ≤ content t)
      (fun _ _ _ hI ha => hI.trans (content_step ha)) (Nat.le_refl _) hmid
  unfold content at hle
  rw [hwire] at hle
  omega

/-- a step that leaves the queue alone sends nothing -/
theorem wire_of_queue {s s' : State M} {a : Act M} (h : step s a = some s')
    (hq : s'.outputQueue = s.outputQueue) : s'.wire = s.wire := by
  obtain ⟨msg, _, hq', _, _⟩ | ⟨_, _, hwire⟩ := queue_step h
  · rw [hq] at hq'
    exact absurd hq' (List.ne_cons_self)
  · exact hwire

/-- a producer stays parked while nothing is sent -/
theorem Parked.step {done : List (Act M)} {s s' : State M} {u : Tid} {a : Act M}
    (h : Parked done s u) (hstep : step s a = some s') (hq : s'.outputQueue = s.outputQueue)
    (hwaiting : s'.waiting = s.waiting ∨ ∃ t, a = .spurious t ∧ s'.waiting = s.waiting.erase t) :
    Parked (done ++ [a]) s' u := by
  obtain ⟨pre, msg, mid, p, rfl, hp, hu, hwire, hstill⟩ := h
  refine ⟨pre, msg, mid ++ [a], p, by simp, hp, hu, (wire_of_queue hstep hq).trans hwire, ?_⟩
  rcases hstill with hstill | hwoken
  · rcases hwaiting with hw | ⟨t, rfl, hw⟩
    · exact Or.inl (hw ▸ hstill)
    · by_cases hut : u = t
      · exact Or.inr (hut ▸ List.mem_append_right _ List.mem_cons_self)
      · exact Or.inl (hw ▸ (List.mem_erase_of_ne hut).mpr hstill)
  · exact Or.inr (List.mem_append_left _ hwoken)

/-- what is known of a run that does not crowd -/
structure Limited (done : List (Act M)) (s : State M) : Prop where
  le : s.outputQueue.length ≤ 1000
  parked : s.outputQueue.length = 1000 → ∃ u, Parked done s u

theorem Limited.step {done : List (Act M)} {s s' : State M} {a : Act M}
    (hrun : run step init done = some s) (hs : Limited done s)
    (hno : ∀ t msg, a = .enqueue t msg → ∀ u, ¬ Parked done s u)
    (h : step s a = some s') : Limited (done ++ [a]) s' := by
  cases step_wait h with
  | push t msg idle queue waiting =>
    have hlt : s.outputQueue.length ≠ 1000 := fun hfull =>
      (hs.parked hfull).elim fun u hu => hno t msg rfl u hu
    have hle := hs.le
    have hlen : s'.outputQueue.length = s.outputQueue.length + 1 := by
      rw [queue, List.length_append, List.length_singleton]
    refine ⟨by omega, fun hfull => ⟨t, done, msg, [], s', rfl, run_snoc _ hrun h, ?_, rfl, ?_⟩⟩
    all_goals
      rw [waiting, if_pos (by omega)]
    · exact List.mem_cons_self
    · exact Or.inl List.mem_cons_self
  | spurious t queue waiting =>
    refine ⟨queue ▸ hs.le, fun hfull => ?_⟩
    obtain ⟨u, hu⟩ := hs.parked (queue ▸ hfull)
    exact ⟨u, hu.step h queue (Or.inr ⟨t, rfl, waiting⟩)⟩
  | same queue waiting =>
    rcases queue with hq | ⟨msg, hq, _⟩
    · refine ⟨hq ▸ hs.le, fun hfull => ?_⟩
      obtain ⟨u, hu⟩ := hs.parked (hq ▸ hfull)
      exact ⟨u, hu.step h hq (Or.inl waiting)⟩
    · have hle := hs.le
      rw [hq, List.length_cons] at hle
      exact ⟨by omega, fun hfull => absurd hfull (by omega)⟩
  | emptied _ _ _ _ _ _ nil _ =>
    have hlen : s'.outputQueue.length = 0 := by rw [nil, List.length_nil]
    exact ⟨by omega, fun hfull => absurd hfull (by omega)⟩

theorem run_limited {as bs : List (Act M)} (hno : ¬ Crowds as) {s : State M}
    (h : run step init bs = some s) (hbs : bs <+: as) : Limited bs s := by
  refine run_hist_along (C := fun _ _ => True) (I := fun t done => done <+: as → Limited done t)
    (fun _ => ⟨Nat.zero_le _, fun hfull => absurd hfull (by simp [init])⟩)
    (fun t done a u _ hdone ih ha hpre => ?_)
    (along_true init bs) h hbs
  refine (ih ((List.prefix_append done [a]).trans hpre)).step hdone (fun v msg e w hw => ?_) ha
  obtain ⟨post, rfl⟩ := hpre
  exact hno ⟨done, v, msg, post, t, w, by rw [e]; simp, hdone, hw⟩

/-- **When the limit is kept.**  The queue holds at most 1000 messages in every state of a run
exactly when nobody pushes while a producer is parked at the limit, or after it was woken there
spuriously, with nothing sent in between. -/
theorem limit_iff (as : List (Act M)) (s : State M) (h : run step init as = some s) :
    (∀ m, Visits step init as m → m.outputQueue.length ≤ 1000) ↔ ¬ Crowds as := by
  constructor
  · rintro hall ⟨done, t, msg, post, m, u, rfl, hm, hu⟩
    rw [run_append, hm] at h
    obtain ⟨m', hm', _⟩ := run_cons_some _ h
    have hle := hall m' ⟨done ++ [.enqueue t msg], ⟨post, by simp⟩, run_snoc _ hm hm'⟩
    rw [(enqueue_eff hm').1, List.length_append, List.length_singleton] at hle
    have hfull := hu.full hm
    omega
  · rintro hno m ⟨bs, hbs, hm⟩
    exact (run_limited hno hm hbs).le

/-- the steps of a program with the one producer `t`, without spurious wake-ups -/
def OnlyBy (t : Tid) : Act M → Prop
  | .enqueue t' _ => t' = t
  | .spurious _ => False
  | _ => True

/-- the producer that filled the queue waits until it is empty -/
theorem single_step {t : Tid} {s s' : State M} {a : Act M} (ha : OnlyBy t a)
    (hs : s.outputQueue.length ≤ 1000 ∧ (s.outputQueue.length = 1000 → t ∈ s.waiting))
    (h : step s a = some s') :
    s'.outputQueue.length ≤ 1000 ∧ (s'.outputQueue.length = 1000 → t ∈ s'.waiting) := by
  obtain ⟨hle, hwait⟩ := hs
  cases step_wait h with
  | push t' msg idle queue waiting =>
    have ht : t' = t := ha
    subst ht
    have hne : s.outputQueue.length ≠ 1000 := fun hfull => idle (hwait hfull)
    rw [queue, waiting, List.length_append, List.length_singleton]
    refine ⟨by omega, fun hfull => ?_⟩
    rw [if_pos hfull]
    exact List.mem_cons_self
  | spurious t' _ _ => exact ha.elim
  | same queue waiting =>
    rw [waiting]
    rcases queue with hq | ⟨msg, hq, _⟩
    · rw [hq]
      exact ⟨hle, hwait⟩
    · rw [hq, List.length_cons] at hle
      exact ⟨by omega, fun hfull => absurd hfull (by omega)⟩
  | emptied _ _ _ _ _ _ nil _ =>
    rw [nil]
    exact ⟨Nat.zero_le _, fun hfull => absurd hfull (by simp)⟩

/-- One producer alone, without spurious wake-ups, keeps the limit. -/
theorem single_producer_limit (t : Tid) {as : List (Act M)} (hby : ∀ a ∈ as, OnlyBy t a)
    {s : State M} (h : run step init as = some s) : s.outputQueue.length ≤ 1000 :=
  (run_inv_along (C := fun _ a => OnlyBy t a)
    (I := fun m : State M => m.outputQueue.length ≤ 1000 ∧
      (m.outputQueue.length = 1000 → t ∈ m.waiting))
    (fun _ _ _ hC hI ha => single_step hC hI ha) (along_of_forall init hby)
    ⟨Nat.zero_le _, fun hfull => absurd hfull (by simp [init])⟩ h).1

/-- so the last message finds at most this one waiting -/
theorem single_serves (t : Tid) {as : List (Act M)} (hby : ∀ a ∈ as, OnlyBy t a) :
    Along step (fun s a => ¬ Overloads s a) init as := by
  refine Along.mono (fun s a hs hover => ?_) (Along.inv (C := fun _ a => OnlyBy t a)
    (I := fun s : State M => s.waiting = [] ∨ s.waiting = [t]) (fun s a s' ha hs h => ?_)
    (along_of_forall init hby) (Or.inl rfl))
  · cases a with
    | send ret wake =>
      obtain ⟨_, _, _, _, hlen⟩ := hover
      rcases hs.1 with hw | hw
      all_goals
        rw [hw] at hlen
        exact absurd hlen (by simp)
    | _ => exact hover
  · cases step_wait h with
    | push t' msg idle queue waiting =>
      have ht : t' = t := ha
      subst ht
      have hnil : s.waiting = [] := hs.resolve_right fun hw => idle (hw ▸ List.mem_cons_self)
      rw [waiting, hnil]
      split
      · exact Or.inr rfl
      · exact Or.inl rfl
    | spurious t' _ _ => exact ha.elim
    | same _ waiting => exact waiting ▸ hs
    | emptied _ _ _ _ _ _ _ signal =>
      left
      rcases signal with ⟨_, _, hw⟩ | ⟨t', _, ht', hw, _⟩
      · exact hw
      · rcases hs with hs | hs
        · rw [hs] at ht'
          cases ht'
        · rw [hs] at ht'
          rw [hw, hs, List.mem_singleton.mp ht', List.erase_cons_head]

/-! ## two producers at the limit -/

/-- the selector in front of `select`, with `n` equal messages to send -/
def filled (n : Nat) (waiting : List Tid) (wire : List Unit) : State Unit where
  readSet := {.sock, .pipe}
  writeSet := {.sock}
  pipe := 0
  outputQueue := List.replicate n ()
  pc := .select
  waiting := waiting
  woken := []
  wire := wire

theorem enqueue_filled {n : Nat} {t : Tid} {waiting : List Tid} (wire : List Unit)
    (ht : t ∉ waiting) :
    step (filled (n + 1) waiting wire) (.enqueue t ()) =
      some (filled (n + 2) (if n + 2 = 1000 then t :: waiting else waiting) wire) := by
  have hidle : ¬ (t ∈ waiting ∨ t ∈ ([] : List Tid)) := by simp [ht]
  show enqueue (filled (n + 1) waiting wire) t () = _
  unfold enqueue filled
  rw [if_neg hidle, ← List.replicate_succ']
  simp

theorem run_enqueue {n k : Nat} {t : Tid} {waiting : List Tid} (wire : List Unit)
    (ht : t ∉ waiting) (hlt : n + 1 + k < 1000) :
    run step (filled (n + 1) waiting wire) (List.replicate k (.enqueue t ())) =
      some (filled (n + 1 + k) waiting wire) := by
  induction k generalizing n with
  | zero => rfl
  | succ k ih =>
    rw [List.replicate_succ, run_cons, enqueue_filled wire ht, if_neg (by omega)]
    show run step (filled (n + 1 + 1) waiting wire) _ = _
    rw [ih (by omega)]
    congr 2
    omega

/-- one iteration of the selector, in which the socket accepts a message -/
def round : List (Act Unit) := [.select ∅ {.sock}, .readPipe, .receive, .send 1 none, .rearm]

theorem run_round (n : Nat) (waiting : List Tid) (wire : List Unit) :
    run step (filled (n + 2) waiting wire) round =
      some (filled (n + 1) waiting (wire ++ [()])) := rfl

theorem run_rounds (n k : Nat) (waiting : List Tid) (wire : List Unit) :
    run step (filled (n + 1 + k) waiting wire) (List.replicate k round).flatten =
      some (filled (n + 1) waiting (wire ++ List.replicate k ())) := by
  induction k generalizing wire with
  | zero =>
    show some (filled (n + 1) waiting wire) = some (filled (n + 1) waiting (wire ++ []))
    rw [List.append_nil]
  | succ k ih =>
    rw [List.replicate_succ, List.flatten_cons]
    refine run_trans step (t := filled (n + 1 + k) waiting (wire ++ [()])) ?_ ?_
    · rw [show n + 1 + (k + 1) = n + k + 2 by omega, run_round]
      congr 2
      omega
    · rw [ih, List.append_assoc]
      rfl

/-- producer 0 fills the queue, starting with a message that the socket does not take at once -/
def fill : List (Act Unit) :=
  [.enqueue 0 (), .select {.pipe} ∅, .readPipe, .receive, .send 0 none, .rearm] ++
    List.replicate 998 (.enqueue 0 ()) ++ [.enqueue 0 ()]

theorem run_fill : run step init fill = some (filled 1000 [0] []) := by
  have hfirst : run step init
      [.enqueue 0 (), .select {.pipe} ∅, .readPipe, .receive, .send 0 none, .rearm] =
      some (filled 1 [] []) := rfl
  have hmore : run step (filled 1 [] []) (List.replicate 998 (.enqueue 0 ())) =
      some (filled (0 + 1 + 998) [] []) := run_enqueue [] List.not_mem_nil (by omega)
  have hlast : step (filled (998 + 1) [] []) (.enqueue 0 ()) =
      some (filled (998 + 2) (if 998 + 2 = 1000 then [0] else []) []) :=
    enqueue_filled [] List.not_mem_nil
  refine run_snoc step (run_trans step hfirst hmore) ?_
  show step (filled (998 + 1) [] []) _ = _
  rw [hlast]
  rfl

/-- producer 1 fills the queue once more; both producers wait until it is empty -/
def fillTwice : List (Act Unit) :=
  fill ++ round ++ [.enqueue 1 ()] ++ (List.replicate 999 round).flatten

theorem run_fillTwice :
    run step init fillTwice = some (filled 1 [1, 0] ([()] ++ List.replicate 999 ())) := by
  have hsent := run_round 998 [0] []
  have hagain : step (filled (998 + 1) [0] [()]) (.enqueue 1 ()) =
      some (filled (998 + 2) (if 998 + 2 = 1000 then [1, 0] else [0]) [()]) :=
    enqueue_filled [()] (by decide)
  have hdrain := run_rounds 0 999 [1, 0] [()]
  refine run_trans step (run_snoc step (run_trans step run_fill hsent) ?_) hdrain
  show step (filled (998 + 1) [0] [()]) _ = _
  rw [hagain]
  rfl

/-- the last message wakes producer 0, and producer 1 stays behind -/
def strand : List (Act Unit) :=
  fillTwice ++ [.select ∅ {.sock}, .readPipe, .receive, .send 1 (some 0), .resume 0]

theorem producer_left_behind :
    ¬ ∀ (as : List (Act Unit)) (s : State Unit), run step init as = some s → ¬ Stranded s := by
  intro hall
  obtain ⟨s, hlast, hs⟩ : ∃ s, run step (filled 1 [1, 0] ([()] ++ List.replicate 999 ()))
      [.select ∅ {.sock}, .readPipe, .receive, .send 1 (some 0), .resume 0] = some s ∧
      Stranded s :=
    ⟨_, rfl, rfl, rfl, List.cons_ne_nil 1 []⟩
  exact hall strand s (run_trans step run_fillTwice hlast) hs

/-- the last message goes out, and wakes producer 0 -/
def last : List (Act Unit) :=
  [.select ∅ {.sock}, .readPipe, .receive, .send 1 (some 0), .resume 0]

/-- producer 0 fills the queue and waits until everything is sent -/
def fillAndDrain : List (Act Unit) := fill ++ (List.replicate 999 round).flatten ++ last

theorem onlyBy_fill : ∀ a ∈ fill, OnlyBy 0 a := by
  intro a ha
  rcases List.mem_append.mp ha with ha | ha
  · rcases List.mem_append.mp ha with ha | ha
    · simp only [List.mem_cons, List.not_mem_nil, or_false] at ha
      rcases ha with rfl | rfl | rfl | rfl | rfl | rfl <;> trivial
    · rw [List.eq_of_mem_replicate ha]
      trivial
  · rw [List.mem_singleton.mp ha]
    trivial

theorem onlyBy_fillAndDrain : ∀ a ∈ fillAndDrain, OnlyBy 0 a := by
  intro a ha
  rcases List.mem_append.mp ha with ha | ha
  · rcases List.mem_append.mp ha with ha | ha
    · exact onlyBy_fill a ha
    · obtain ⟨l, hl, ha⟩ := List.mem_flatten.mp ha
      rw [List.eq_of_mem_replicate hl] at ha
      simp only [round, List.mem_cons, List.not_mem_nil, or_false] at ha
      rcases ha with rfl | rfl | rfl | rfl | rfl <;> trivial
  · simp only [last, List.mem_cons, List.not_mem_nil, or_false] at ha
    rcases ha with rfl | rfl | rfl | rfl | rfl <;> trivial

/-- One producer waits for room and is woken by the last message; of two, one stays behind. -/
theorem never_stranded_drained :
    (∃ s, run step init fillAndDrain = some s ∧ s.wire.length = 1000 ∧ ¬ Stranded s) ∧
    ∃ s t u, run step init (fillTwice ++ [.select ∅ {.sock}, .readPipe, .receive]) = some s ∧
      step s (.send 1 (some 0)) = some t ∧ run step t (t.woken.map .resume) = some u ∧
      Stranded u := by
  constructor
  · have hdrained : run step init (fill ++ (List.replicate 999 round).flatten) =
        some (filled 1 [0] ([] ++ List.replicate 999 ())) :=
      run_trans step run_fill (run_rounds 0 999 [0] [])
    obtain ⟨s, hlast, hwire⟩ : ∃ s, run step (filled 1 [0] ([] ++ List.replicate 999 ())) last =
        some s ∧ s.wire = [] ++ List.replicate 999 () ++ [()] := ⟨_, rfl, rfl⟩
    have hrun : run step init fillAndDrain = some s := run_trans step hdrained hlast
    refine ⟨s, hrun, ?_, (never_stranded _ s hrun).1 (single_serves 0 onlyBy_fillAndDrain)⟩
    rw [hwire, List.nil_append, List.length_append, List.length_replicate, List.length_singleton]
  · obtain ⟨s, t, hs, hover, ht⟩ : ∃ s t, run step (filled 1 [1, 0] ([()] ++ List.replicate 999 ()))
        [.select ∅ {.sock}, .readPipe, .receive] = some s ∧ Overloads s (.send 1 (some 0)) ∧
        step s (.send 1 (some 0)) = some t := ⟨_, _, rfl, by decide, rfl⟩
    have hrun := run_trans step run_fillTwice hs
    obtain ⟨u, hu, hstranded⟩ := (never_stranded _ s hrun).2 _ t hover ht
    exact ⟨s, t, u, hrun, ht, hu, hstranded⟩

theorem limit_exceeded :
    ¬ ∀ (as : List (Act Unit)) (s : State Unit), run step init as = some s →
      s.outputQueue.length ≤ 1000 := by
  intro hall
  have hpush : step (filled (999 + 1) [0] []) (.enqueue 1 ()) =
      some (filled (999 + 2) (if 999 + 2 = 1000 then [1, 0] else [0]) []) :=
    enqueue_filled [] (by decide)
  have hle := hall (fill ++ [.enqueue 1 ()]) _ (run_snoc step run_fill hpush)
  rw [show (filled (999 + 2) _ _).outputQueue = List.replicate 1001 () from rfl,
    List.length_replicate] at hle
  exact absurd hle (by decide)

/-- Producer 0 alone parks at the limit and keeps it; a push of producer 1 crowds it. -/
theorem limit_iff_fill :
    (∃ s, run step init fill = some s ∧ s.outputQueue.length = 1000 ∧ s.waiting = [0] ∧
      ¬ Crowds fill) ∧
    ∃ s, run step init (fill ++ [.enqueue 1 ()]) = some s ∧ s.outputQueue.length = 1001 ∧
      Crowds (fill ++ [.enqueue 1 ()]) := by
  constructor
  · refine ⟨_, run_fill, List.length_replicate, rfl, (limit_iff fill _ run_fill).mp ?_⟩
    rintro m ⟨bs, hbs, hm⟩
    exact single_producer_limit 0 (fun a ha => onlyBy_fill a (hbs.subset ha)) hm
  · have hpush : step (filled (999 + 1) [0] []) (.enqueue 1 ()) =
        some (filled (999 + 2) (if 999 + 2 = 1000 then [1, 0] else [0]) []) :=
      enqueue_filled [] (by decide)
    have hrun := run_snoc step run_fill hpush
    refine ⟨_, hrun, List.length_replicate, ?_⟩
    by_contra hno
    have hle := (limit_iff _ _ hrun).mpr hno _ (Visits.last hrun)
    rw [show (filled (999 + 2) _ _).outputQueue = List.replicate 1001 () from rfl,
      List.length_replicate] at hle
    exact absurd hle (by decide)

end SendPath
end BA
