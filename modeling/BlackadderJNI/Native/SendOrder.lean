import BlackadderJNI.Lib.Channel
import BlackadderJNI.Native.SendPath

/-!
# What holds along every run of the send path

The wake-up information is one credit: `sock_fd` in `write_set`, or an unread byte in the pipe.

* `Effect`              what one step can do; every invariant is derived from it;
* `credit`, `Inv`       at most one credit, and none for an empty queue;
* `credit_step`         the credit after a step, unless the step starves the queue;
* `Starves`             `select` drops `sock_fd` from `write_set`, and nothing puts it back;
* `wakeable_iff`        a queued message can wake the selector exactly when no step starved;
* `refines_channel`     the send path simulates a first-in first-out channel;
* `wire_append_queue`   what was accepted, then what is queued, is what was pushed.
-/

namespace BA
namespace SendPath
open Run

variable {M : Type}

/-! ## what one step does -/

theorem enqueue_eff {s s' : State M} {t : Tid} {msg : M} (h : enqueue s t msg = some s') :
    s'.outputQueue = s.outputQueue ++ [msg] ∧
    s'.pipe = (if s.outputQueue = [] then s.pipe + 1 else s.pipe) ∧
    s'.readSet = s.readSet ∧ s'.writeSet = s.writeSet ∧ s'.pc = s.pc ∧ s'.wire = s.wire := by
  unfold enqueue at h
  split at h
  · cases h
  · cases h
    refine ⟨rfl, ?_, rfl, rfl, rfl, rfl⟩
    simp

/-- the step touches only the threads that wait -/
structure Quiet (s s' : State M) : Prop where
  readSet : s'.readSet = s.readSet
  writeSet : s'.writeSet = s.writeSet
  pipe : s'.pipe = s.pipe
  outputQueue : s'.outputQueue = s.outputQueue
  pc : s'.pc = s.pc
  wire : s'.wire = s.wire

theorem Quiet.refl (s : State M) : Quiet s s := ⟨rfl, rfl, rfl, rfl, rfl, rfl⟩

theorem resume_quiet {s s' : State M} {t : Tid} (h : resume s t = some s') : Quiet s s' := by
  unfold resume at h
  split at h
  · cases h
    exact ⟨rfl, rfl, rfl, rfl, rfl, rfl⟩
  · cases h

theorem spurious_quiet {s s' : State M} {t : Tid} (h : spurious s t = some s') : Quiet s s' := by
  unfold spurious at h
  split at h
  · cases h
    exact ⟨rfl, rfl, rfl, rfl, rfl, rfl⟩
  · cases h

theorem signal_quiet {s s' : State M} {wake : Option Tid} (h : signal s wake = some s') :
    Quiet s s' := by
  cases wake with
  | some t => exact spurious_quiet h
  | none =>
    dsimp only [signal] at h
    split at h
    · cases h
      exact Quiet.refl s
    · cases h

theorem selectError_quiet {s s' : State M} (h : selectError s = some s') : Quiet s s' := by
  unfold selectError at h
  split at h
  · cases h
    exact Quiet.refl s
  · cases h

theorem select_eff {s s' : State M} {r w : Finset Fd} (h : select s r w = some s') :
    (s.pc = .select ∧ r ⊆ s.readSet ∧ w ⊆ s.writeSet ∧ (.pipe ∈ r → 0 < s.pipe)) ∧
    s' = { s with readSet := r, writeSet := w, pc := .testPipe } := by
  unfold select at h
  split at h
  · next hc =>
    cases h
    exact ⟨⟨hc.1, hc.2.1, hc.2.2.1, hc.2.2.2.2⟩, rfl⟩
  · cases h

theorem readPipe_eff {s s' : State M} (h : readPipe s = some s') :
    (.pipe ∈ s.readSet ∧ 0 < s.pipe ∧
      s' = { s with pipe := s.pipe - 1, writeSet := {.sock}, pc := .testRead }) ∨
    (.pipe ∉ s.readSet ∧ s' = { s with pc := .testRead }) := by
  unfold readPipe at h
  split at h
  · cases h
  · split at h
    · next hr =>
      split at h
      · next hp =>
        cases h
        exact Or.inl ⟨hr, hp, rfl⟩
      · cases h
    · next hr =>
      cases h
      exact Or.inr ⟨hr, rfl⟩

theorem receive_eff {s s' : State M} (h : receive s = some s') :
    s' = { s with pc := .testWrite } := by
  unfold receive at h
  split at h
  · cases h
    rfl
  · cases h

theorem rearm_eff {s s' : State M} (h : rearm s = some s') :
    s' = { s with readSet := {.sock, .pipe}, pc := .select } := by
  unfold rearm at h
  split at h
  · cases h
    rfl
  · cases h

theorem leave_eff {s s' : State M} {wake : Option Tid} (h : leave s wake = some s') :
    s'.pipe = s.pipe ∧ s'.outputQueue = s.outputQueue ∧ s'.wire = s.wire ∧ s'.pc = .rearm ∧
    (.sock ∈ s'.writeSet ↔ s.outputQueue ≠ []) := by
  unfold leave at h
  split at h
  · next hq =>
    cases h
    refine ⟨rfl, rfl, rfl, rfl, fun _ => List.ne_nil_of_length_pos hq, fun _ => by simp⟩
  · next hq =>
    have hs := signal_quiet h
    have hnil : s.outputQueue = [] := List.eq_nil_of_length_eq_zero (by omega)
    refine ⟨hs.pipe, hs.outputQueue, hs.wire, hs.pc, ?_⟩
    rw [hs.writeSet]
    simp [hnil]

/-- what `send` does where `sock_fd` is in `write_set` and a message is queued -/
def Sent (ret : Int) (s s' : State M) : Prop :=
  s'.pipe = s.pipe ∧ s'.pc = .rearm ∧ (.sock ∈ s'.writeSet ↔ s'.outputQueue ≠ []) ∧
  ∃ msg rest, s.outputQueue = msg :: rest ∧
    ((0 < ret ∧ s'.outputQueue = rest ∧ s'.wire = s.wire ++ [msg]) ∨
      (¬ 0 < ret ∧ s'.outputQueue = s.outputQueue ∧ s'.wire = s.wire))

theorem send_eff {s s' : State M} {ret : Int} {wake : Option Tid}
    (h : send s ret wake = some s') :
    s.pc = .testWrite ∧
    ((.sock ∉ s.writeSet ∧ s' = { s with pc := .rearm }) ∨
    (.sock ∈ s.writeSet ∧ s.outputQueue = [] ∧ s' = { s with pc := .undefined }) ∨
    (.sock ∈ s.writeSet ∧ Sent ret s s')) := by
  unfold send at h
  split at h
  · cases h
  next hpc =>
  refine ⟨not_not.mp hpc, ?_⟩
  split at h
  · next hw =>
    cases hq : s.outputQueue with
    | nil =>
      rw [hq] at h
      cases h
      exact Or.inr (Or.inl ⟨hw, rfl, rfl⟩)
    | cons msg rest =>
      rw [hq] at h
      refine Or.inr (Or.inr ⟨hw, ?_⟩)
      dsimp only at h
      split at h
      · next hret =>
        obtain ⟨hp, hq', hwire, hpc, hsock⟩ := leave_eff h
        exact ⟨hp, hpc, hq'.symm ▸ hsock, msg, rest, hq, Or.inl ⟨hret, hq', hwire⟩⟩
      · next hret =>
        obtain ⟨hp, hq', hwire, hpc, hsock⟩ := leave_eff h
        exact ⟨hp, hpc, hq'.symm ▸ hsock, msg, rest, hq, Or.inr ⟨hret, hq', hwire⟩⟩
  · next hw =>
    cases h
    exact Or.inl ⟨hw, rfl⟩

/-- **What a step can do**, said once for all the invariants below. -/
inductive Effect (s s' : State M) : Act M → Prop
  | enqueue (t : Tid) (msg : M) (queue : s'.outputQueue = s.outputQueue ++ [msg])
      (pipe : s'.pipe = if s.outputQueue = [] then s.pipe + 1 else s.pipe)
      (readSet : s'.readSet = s.readSet) (writeSet : s'.writeSet = s.writeSet)
      (pc : s'.pc = s.pc) (wire : s'.wire = s.wire) : Effect s s' (.enqueue t msg)
  | quiet {a : Act M} (pushed : a.pushed = []) (none : accepted s a = none) (same : Quiet s s') :
      Effect s s' a
  /-- the selector goes on to a statement other than the test of the pipe -/
  | move {a : Act M} (pushed : a.pushed = []) (none : accepted s a = none) (r : Finset Fd) (pc : Pc)
      (pc_ne : pc ≠ .testPipe ∧ pc ≠ .undefined) (eq : s' = { s with readSet := r, pc := pc }) :
      Effect s s' a
  | select (r w : Finset Fd) (sub : w ⊆ s.writeSet) (readable : .pipe ∈ r → 0 < s.pipe)
      (eq : s' = { s with readSet := r, writeSet := w, pc := .testPipe }) :
      Effect s s' (.select r w)
  | read (pos : 0 < s.pipe)
      (eq : s' = { s with pipe := s.pipe - 1, writeSet := {.sock}, pc := .testRead }) :
      Effect s s' .readPipe
  | sent (ret : Int) (wake : Option Tid) (pc : s.pc = .testWrite) (mem : .sock ∈ s.writeSet)
      (sent : Sent ret s s') : Effect s s' (.send ret wake)
  | underflow (ret : Int) (wake : Option Tid) (mem : .sock ∈ s.writeSet)
      (nil : s.outputQueue = []) (eq : s' = { s with pc := .undefined }) :
      Effect s s' (.send ret wake)

theorem step_effect {s s' : State M} {a : Act M} (h : step s a = some s') : Effect s s' a := by
  cases a with
  | enqueue t msg =>
    obtain ⟨hq, hp, hr, hw, hpc, hwire⟩ := enqueue_eff h
    exact .enqueue t msg hq hp hr hw hpc hwire
  | resume t => exact .quiet rfl rfl (resume_quiet h)
  | spurious t => exact .quiet rfl rfl (spurious_quiet h)
  | selectError => exact .quiet rfl rfl (selectError_quiet h)
  | select r w =>
    obtain ⟨⟨_, _, hw, hr⟩, e⟩ := select_eff h
    exact .select r w hw hr e
  | readPipe =>
    obtain ⟨_, hp, e⟩ | ⟨_, e⟩ := readPipe_eff h
    · exact .read hp e
    · exact .move rfl rfl s.readSet .testRead (by decide) e
  | receive => exact .move rfl rfl s.readSet .testWrite (by decide) (receive_eff h)
  | send ret wake =>
    obtain ⟨hpc, ⟨hw, e⟩ | ⟨hw, hq, e⟩ | ⟨hw, hs⟩⟩ := send_eff h
    · exact .move rfl (if_neg fun hc => hw hc.2.1) s.readSet .rearm (by decide) e
    · exact .underflow ret wake hw hq e
    · exact .sent ret wake hpc hw hs
  | rearm => exact .move rfl rfl {.sock, .pipe} .select (by decide) (rearm_eff h)

/-- the queue after a step: the first message is accepted, or what is pushed is appended -/
theorem queue_step {s s' : State M} {a : Act M} (h : step s a = some s') :
    (∃ msg, accepted s a = some msg ∧ s.outputQueue = msg :: s'.outputQueue ∧
      s'.wire = s.wire ++ [msg] ∧ a.pushed = []) ∨
    (accepted s a = none ∧ s'.outputQueue = s.outputQueue ++ a.pushed ∧ s'.wire = s.wire) := by
  have same : accepted s a = none → a.pushed = [] → s'.outputQueue = s.outputQueue →
      s'.wire = s.wire → accepted s a = none ∧ s'.outputQueue = s.outputQueue ++ a.pushed ∧
        s'.wire = s.wire := fun ha hp hq hw => ⟨ha, by rw [hp, List.append_nil, hq], hw⟩
  cases step_effect h with
  | enqueue t msg hq _ _ _ _ hwire => exact Or.inr ⟨rfl, hq, hwire⟩
  | quiet hp ha q => exact Or.inr (same ha hp q.outputQueue q.wire)
  | move hp ha r pc _ e => exact Or.inr (same ha hp (by rw [e]) (by rw [e]))
  | select r w _ _ e => exact Or.inr (same rfl rfl (by rw [e]) (by rw [e]))
  | read _ e => exact Or.inr (same rfl rfl (by rw [e]) (by rw [e]))
  | underflow ret wake _ hq e =>
    refine Or.inr (same ?_ rfl (by rw [e]) (by rw [e]))
    dsimp only [accepted]
    rw [hq, List.head?_nil, ite_self]
  | sent ret wake hpc hw hs =>
    obtain ⟨_, _, _, msg, rest, hq, ⟨hret, hq', hwire⟩ | ⟨hret, hq', hwire⟩⟩ := hs
    · refine Or.inl ⟨msg, ?_, by rw [hq, hq'], hwire, rfl⟩
      dsimp only [accepted]
      rw [if_pos ⟨hpc, hw, hret⟩, hq, List.head?_cons]
    · exact Or.inr (same (if_neg fun hc => hret hc.2.2) rfl hq' hwire)

/-! ## the credit -/

def credit (s : State M) : Nat := (if .sock ∈ s.writeSet then 1 else 0) + s.pipe

theorem credit_congr {s s' : State M} (hw : .sock ∈ s'.writeSet ↔ .sock ∈ s.writeSet)
    (hp : s'.pipe = s.pipe) : credit s' = credit s := by
  unfold credit
  rw [hp]
  simp only [hw]

theorem credit_of_mem {s : State M} (h : .sock ∈ s.writeSet) : credit s = 1 + s.pipe := by
  simp [credit, h]

theorem credit_of_not_mem {s : State M} (h : .sock ∉ s.writeSet) : credit s = s.pipe := by
  simp [credit, h]

structure Inv (s : State M) : Prop where
  credit_le : credit s ≤ 1
  idle : s.outputQueue = [] → credit s = 0
  readable : s.pc = .testPipe → .pipe ∈ s.readSet → 0 < s.pipe
  defined : s.pc ≠ .undefined

theorem Inv.init : Inv (init : State M) where
  credit_le := Nat.zero_le 1
  idle _ := rfl
  readable h := by cases h
  defined h := by cases h

/-- `select` returns without `sock_fd` in `write_set`, although it was put there -/
def Starves (s : State M) : Act M → Prop
  | .select _ w => .sock ∈ s.writeSet ∧ .sock ∉ w
  | _ => False

/-- the credit after a step: none for an empty queue, a fresh one for its first message, and
the same one otherwise -/
def nextCredit (s s' : State M) : Nat :=
  if s'.outputQueue = [] then 0 else if s.outputQueue = [] then 1 else credit s

theorem credit_same {s s' : State M} (hi : Inv s) (hq : s'.outputQueue = s.outputQueue)
    (hc : credit s' = credit s) : credit s' = nextCredit s s' := by
  unfold nextCredit
  rw [hc, hq]
  by_cases h : s.outputQueue = []
  · rw [if_pos h, hi.idle h]
  · rw [if_neg h, if_neg h]

theorem credit_sent {s s' : State M} {ret : Int} (hi : Inv s) (hw : .sock ∈ s.writeSet)
    (h : Sent ret s s') :
    credit s' = nextCredit s s' := by
  obtain ⟨hp, _, hsock, msg, rest, hq, _⟩ := h
  have hc := credit_of_mem hw
  have hle := hi.credit_le
  have hne : s.outputQueue ≠ [] := by simp [hq]
  unfold nextCredit
  by_cases hq' : s'.outputQueue = []
  · have hn : .sock ∉ s'.writeSet := fun h => hsock.mp h hq'
    rw [if_pos hq', credit_of_not_mem hn]
    omega
  · rw [if_neg hq', if_neg hne, credit_of_mem (hsock.mpr hq')]
    omega

theorem credit_step {s s' : State M} {a : Act M} (hi : Inv s) (h : step s a = some s')
    (hn : ¬ Starves s a) : credit s' = nextCredit s s' := by
  cases step_effect h with
  | enqueue t msg hq hp _ hw _ _ =>
    unfold nextCredit
    by_cases he : s.outputQueue = []
    · have h0 := hi.idle he
      rw [if_neg (by simp [hq]), if_pos he]
      unfold credit at h0 ⊢
      rw [hw, hp, if_pos he]
      omega
    · rw [if_neg (by simp [hq]), if_neg he]
      exact credit_congr (by rw [hw]) (by rw [hp, if_neg he])
  | quiet _ _ q => exact credit_same hi q.outputQueue (credit_congr (by rw [q.writeSet]) q.pipe)
  | move _ _ r pc _ e => exact credit_same hi (by rw [e]) (credit_congr (by rw [e]) (by rw [e]))
  | select r w hw _ e =>
    refine credit_same hi (by rw [e]) (credit_congr ?_ (by rw [e]))
    rw [e]
    refine ⟨fun hm => hw hm, fun hm => ?_⟩
    by_contra hm'
    exact hn ⟨hm, hm'⟩
  | read hp e =>
    -- the byte becomes the entry in `write_set`
    refine credit_same hi (by rw [e]) ?_
    have hle := hi.credit_le
    have hnew : .sock ∈ ({.sock} : Finset Fd) := by simp
    unfold credit at hle ⊢
    rw [e, if_pos hnew]
    show 1 + (s.pipe - 1) = _
    omega
  | underflow ret wake _ _ e =>
    exact credit_same hi (by rw [e]) (credit_congr (by rw [e]) (by rw [e]))
  | sent ret wake _ hw hs => exact credit_sent hi hw hs

theorem credit_starves {s s' : State M} {a : Act M} (hi : Inv s) (h : step s a = some s')
    (hs : Starves s a) : s.outputQueue ≠ [] ∧ s'.outputQueue = s.outputQueue ∧ credit s' = 0 := by
  cases a with
  | select r w =>
    obtain ⟨hmem, hdrop⟩ := hs
    obtain ⟨_, rfl⟩ := select_eff h
    have hle := hi.credit_le
    have hc := credit_of_mem hmem
    refine ⟨fun he => ?_, rfl, ?_⟩
    · have h0 := hi.idle he
      omega
    · rw [credit_of_not_mem hdrop]
      show s.pipe = 0
      omega
  | _ => exact hs.elim

theorem credit_idle {s s' : State M} {a : Act M} (hi : Inv s) (h : step s a = some s') :
    credit s' ≤ 1 ∧ (s'.outputQueue = [] → credit s' = 0) := by
  by_cases hs : Starves s a
  · obtain ⟨_, _, hc⟩ := credit_starves hi h hs
    exact ⟨by omega, fun _ => hc⟩
  · rw [credit_step hi h hs]
    have hle := hi.credit_le
    unfold nextCredit
    refine ⟨?_, fun he => if_pos he⟩
    split_ifs <;> omega

theorem readable_step {s s' : State M} {a : Act M} (hi : Inv s) (h : step s a = some s')
    (hpc : s'.pc = .testPipe) (hr : .pipe ∈ s'.readSet) : 0 < s'.pipe := by
  cases step_effect h with
  | enqueue t msg _ hp hrs _ hpc' _ =>
    have hold := hi.readable (hpc' ▸ hpc) (hrs ▸ hr)
    rw [hp]
    split_ifs <;> omega
  | quiet _ _ q =>
    rw [q.pipe]
    exact hi.readable (q.pc ▸ hpc) (q.readSet ▸ hr)
  | move _ _ r pc hne e =>
    rw [e] at hpc
    exact absurd hpc hne.1
  | select r w _ hp e =>
    rw [e] at hr ⊢
    exact hp hr
  | read _ e =>
    rw [e] at hpc
    cases hpc
  | underflow ret wake _ _ e =>
    rw [e] at hpc
    cases hpc
  | sent ret wake _ _ hs =>
    rw [hs.2.1] at hpc
    cases hpc

/-- `front` is taken where `sock_fd` is in `write_set`, so where the credit is not zero -/
theorem defined_step {s s' : State M} {a : Act M} (hi : Inv s) (h : step s a = some s') :
    s'.pc ≠ .undefined := by
  cases step_effect h with
  | enqueue t msg _ _ _ _ hpc _ => exact hpc ▸ hi.defined
  | quiet _ _ q => exact q.pc ▸ hi.defined
  | move _ _ r pc hne e => exact e ▸ hne.2
  | select r w _ _ e => exact e ▸ fun h => by cases h
  | read _ e => exact e ▸ fun h => by cases h
  | underflow ret wake hw hq e =>
    have h0 := hi.idle hq
    have h1 := credit_of_mem hw
    omega
  | sent ret wake _ _ hs => exact hs.2.1 ▸ fun h => by cases h

theorem Inv.step {s s' : State M} {a : Act M} (hi : Inv s) (h : step s a = some s') : Inv s' where
  credit_le := (credit_idle hi h).1
  idle := (credit_idle hi h).2
  readable := readable_step hi h
  defined := defined_step hi h

theorem inv_of_run {s : State M} {as : List (Act M)} (h : run step init as = some s) : Inv s :=
  run_inv (fun _ _ _ hi ha => hi.step ha) Inv.init h

/-! ## queued messages and the selector -/

/-- a queued message can wake the selector: `select` watches the socket for it, or will see the
byte in the pipe -/
def Wakeable (s : State M) : Prop :=
  s.outputQueue ≠ [] → .sock ∈ s.writeSet ∨ 0 < s.pipe

instance (s : State M) : Decidable (Wakeable s) :=
  inferInstanceAs (Decidable (s.outputQueue ≠ [] → .sock ∈ s.writeSet ∨ 0 < s.pipe))

theorem credit_pos (s : State M) : 0 < credit s ↔ .sock ∈ s.writeSet ∨ 0 < s.pipe := by
  by_cases hw : .sock ∈ s.writeSet
  · rw [credit_of_mem hw]
    exact ⟨fun _ => Or.inl hw, fun _ => by omega⟩
  · rw [credit_of_not_mem hw]
    exact ⟨Or.inr, fun h => h.resolve_left hw⟩

theorem wakeable_step {s s' : State M} {a : Act M} (hi : Inv s) (hs : Wakeable s)
    (hn : ¬ Starves s a) (h : step s a = some s') : Wakeable s' := by
  intro hq'
  rw [← credit_pos, credit_step hi h hn]
  unfold nextCredit
  rw [if_neg hq']
  by_cases hq : s.outputQueue = []
  · rw [if_pos hq]
    exact Nat.one_pos
  · rw [if_neg hq]
    exact (credit_pos s).mpr (hs hq)

theorem stalled_step {s s' : State M} {a : Act M} (hi : Inv s)
    (hs : s.outputQueue ≠ [] ∧ credit s = 0) (h : step s a = some s') :
    s'.outputQueue ≠ [] ∧ credit s' = 0 := by
  have hw : .sock ∉ s.writeSet := fun hm => by
    have := credit_of_mem hm
    omega
  have hn : ¬ Starves s a := by
    intro hst
    cases a with
    | select r w => exact hw hst.1
    | _ => exact hst
  have hq' : s'.outputQueue ≠ [] := by
    obtain ⟨msg, ha, _⟩ | ⟨_, hq, _⟩ := queue_step h
    · cases a with
      | send ret wake =>
        have hno : accepted s (.send ret wake) = none := if_neg fun hc => hw hc.2.1
        rw [hno] at ha
        cases ha
      | _ => cases ha
    · rw [hq]
      exact fun e => hs.1 (List.append_eq_nil_iff.mp e).1
  refine ⟨hq', ?_⟩
  rw [credit_step hi h hn]
  unfold nextCredit
  rw [if_neg hq', if_neg hs.1, hs.2]

/-- **When a queued message can wake the selector.**  Once a `select` has dropped `sock_fd` from
`write_set`, the queue is stalled for good; without such a step it never stalls. -/
theorem wakeable_iff (as : List (Act M)) (s : State M) (h : run step init as = some s) :
    Wakeable s ↔ Along step (fun t a => ¬ Starves t a) init as := by
  have key : (Inv s ∧ Wakeable s) ↔ Along step (fun t a => ¬ Starves t a) init as := by
    refine run_iff_along (G := fun t => Inv t ∧ Wakeable t)
      (B := fun t => Inv t ∧ t.outputQueue ≠ [] ∧ credit t = 0)
      ?_ ?_ ?_ ?_ ⟨Inv.init, fun hq => absurd rfl hq⟩ h
    · intro t ht hb
      have := (credit_pos t).mpr (ht.2 hb.2.1)
      omega
    · exact fun t a u ht hn hu => ⟨ht.1.step hu, wakeable_step ht.1 ht.2 hn hu⟩
    · intro t a u ht hn hu
      obtain ⟨hq, hq', hc⟩ := credit_starves ht.1 hu (not_not.mp hn)
      exact ⟨ht.1.step hu, hq'.symm ▸ hq, hc⟩
    · exact fun t a u hb hu => ⟨hb.1.step hu, stalled_step hb.1 hb.2 hu⟩
  exact ⟨fun hw => key.mp ⟨inv_of_run h, hw⟩, fun hC => (key.mpr hC).2⟩

/-- two producers; the second message is queued while the selector is about to send the first -/
def twoPushes : List (Act Nat) :=
  [.enqueue 1 10, .select {.pipe} ∅, .readPipe, .enqueue 2 20, .receive, .send (-1) none, .rearm,
    .select ∅ {.sock}, .readPipe, .receive, .send 40 none, .rearm]

def afterTwoPushes : State Nat where
  readSet := {.sock, .pipe}
  writeSet := {.sock}
  pipe := 0
  outputQueue := [20]
  pc := .select
  waiting := []
  woken := []
  wire := [10]

theorem wakeable_iff_two :
    Wakeable afterTwoPushes ↔ Along step (fun t a => ¬ Starves t a) init twoPushes :=
  wakeable_iff twoPushes afterTwoPushes (by decide)

/-- After `twoPushes` the socket becomes readable while it is not writable: the second message is
left in the queue, and neither `write_set` nor the pipe tells the selector. -/
theorem readable_only_stalls :
    ¬ ∀ (as : List (Act Nat)) (s : State Nat), run step init as = some s → s.pc = .select →
      Wakeable s := by
  intro h
  have hrun : run step init
      (twoPushes ++ [.select {.sock} ∅, .readPipe, .receive, .send 0 none, .rearm]) =
      some { afterTwoPushes with writeSet := ∅ } := by decide
  exact absurd (h _ _ hrun rfl) (by decide)

/-! ## the order of messages -/

def channel (s : State M) : Channel M := ⟨s.wire, s.outputQueue⟩

/-- one step of the send path is at most one step of a channel -/
theorem channel_step {s s' : State M} {a : Act M} (h : step s a = some s') :
    ∃ bs, Run.run Channel.step (channel s) bs = some (channel s') ∧
      bs.flatMap Channel.Act.sent = a.pushed := by
  obtain ⟨msg, _, hq, hwire, hp⟩ | ⟨_, hq, hwire⟩ := queue_step h
  · refine ⟨[.take], ?_, hp.symm⟩
    unfold channel
    rw [hq, Channel.run_take, hwire]
  · unfold channel
    rw [hq, hwire]
    exact ⟨a.pushed.map .put, Channel.run_puts _ _, by simp [List.flatMap_map, Channel.Act.sent]⟩

theorem refines_channel {as : List (Act M)} {s : State M} (h : run step init as = some s) :
    ∃ bs, Run.run Channel.step Channel.empty bs = some (channel s) ∧
      bs.flatMap Channel.Act.sent = as.flatMap Act.pushed :=
  run_sim_fun channel Act.pushed Channel.Act.sent (fun _ _ _ hu => channel_step hu) h

/-- **The messages are sent in order, exactly once**, and `front` is never taken of an empty
queue. -/
theorem wire_append_queue (as : List (Act M)) (s : State M) (h : run step init as = some s) :
    s.wire ++ s.outputQueue = as.flatMap Act.pushed ∧ s.pc ≠ .undefined := by
  obtain ⟨bs, hbs, hsent⟩ := refines_channel h
  refine ⟨?_, (inv_of_run h).defined⟩
  rw [← hsent]
  exact Channel.run_order hbs

theorem wire_append_queue_two :
    afterTwoPushes.wire ++ afterTwoPushes.outputQueue = twoPushes.flatMap Act.pushed ∧
      afterTwoPushes.pc ≠ .undefined :=
  wire_append_queue twoPushes afterTwoPushes (by decide)

end SendPath
end BA
