import BlackadderJNI.Lib.Channel

/-!
# The path of received events: the selector, `event_queue` and the worker

One step is one critical section under `worker_mutex`, or one statement of the worker outside it.

* `receive`, `signal`     the selector pushes an event and signals `worker_cond`;
* `lockWait`, `spurious`, `drain`, `call`   the worker's loop;
* `Misses`                an event is pushed while the worker is between its unlock and its wait;
* `waiting_queue_empty`   a waiting worker has an empty queue in every run without such a push,
                          and a push there leaves an event behind the waiting worker;
* `refines_channel`       the event path simulates a first-in first-out channel.
-/

namespace BA
namespace EventPath
open Run

/-- where the worker thread stands in its loop -/
inductive Pc (E : Type) where
  /-- about to lock `worker_mutex` and wait -/
  | top
  | waiting
  /-- signalled, about to take the mutex again inside `pthread_cond_wait` -/
  | woken
  | calling (ev : E)
  | relock
  deriving DecidableEq, Repr

structure State (E C : Type) where
  eventQueue : List E
  worker : Pc E
  /-- the callback function -/
  cf : C
  calls : List (C × E)
  deriving DecidableEq, Repr

variable {E C : Type}

def init (defaultCallback : C) : State E C where
  eventQueue := []
  worker := .top
  cf := defaultCallback
  calls := []

/-! ## the selector -/

/-- `pthread_cond_signal(&worker_cond)` wakes the worker only if it waits -/
def signal (s : State E C) : State E C :=
  match s.worker with
  | .waiting => { s with worker := .woken }
  | _ => s

def receive (s : State E C) (ev : E) : State E C :=
  signal { s with eventQueue := s.eventQueue ++ [ev] }

/-! ## the worker -/

def lockWait (s : State E C) : Option (State E C) :=
  match s.worker with
  | .top => some { s with worker := .waiting }
  | _ => none

def spurious (s : State E C) : Option (State E C) :=
  match s.worker with
  | .waiting => some { s with worker := .woken }
  | _ => none

/-- `while (event_queue.size() > 0)`, with the mutex held, up to the next unlock -/
def test (s : State E C) : State E C :=
  match s.eventQueue with
  | [] => { s with worker := .top }
  | ev :: rest => { s with eventQueue := rest, worker := .calling ev }

def drain (s : State E C) : Option (State E C) :=
  match s.worker with
  | .woken | .relock => some (test s)
  | _ => none

def call (s : State E C) : Option (State E C) :=
  match s.worker with
  | .calling ev => some { s with calls := s.calls ++ [(s.cf, ev)], worker := .relock }
  | _ => none

inductive Act (E C : Type) where
  | receive (ev : E)
  | lockWait
  | spurious
  | drain
  | call
  | setCallback (function : C)

def step (s : State E C) : Act E C → Option (State E C)
  | .receive ev => some (receive s ev)
  | .lockWait => lockWait s
  | .spurious => spurious s
  | .drain => drain s
  | .call => call s
  | .setCallback function => some { s with cf := function }

/-! ## lost wake-ups -/

/-- the selector pushes while the worker, not yet waiting, no longer looks at the queue -/
def Misses (s : State E C) : Act E C → Prop
  | .receive _ => s.worker = .top
  | _ => False

instance [DecidableEq E] (s : State E C) : ∀ a, Decidable (Misses s a)
  | .receive _ => inferInstanceAs (Decidable (s.worker = .top))
  | .lockWait | .spurious | .drain | .call | .setCallback _ => isFalse id

/-- the worker will not look at the queue before the next signal -/
def Idle : Pc E → Prop
  | .top | .waiting => True
  | _ => False

theorem receive_idle {s : State E C} {ev : E} (hn : s.worker ≠ .top) :
    ¬ Idle (receive s ev).worker := by
  unfold receive signal
  cases hw : s.worker with
  | top => exact absurd hw hn
  | _ => simp [Idle]

theorem test_idle {s : State E C} (h : Idle (test s).worker) : (test s).eventQueue = [] := by
  unfold test at h ⊢
  split at h
  · next hq => exact hq
  · exact h.elim

/-- a step that does not miss keeps the queue of an idle worker empty -/
theorem idle_step {s t : State E C} {a : Act E C} (hn : ¬ Misses s a)
    (hs : Idle s.worker → s.eventQueue = []) (h : step s a = some t) :
    Idle t.worker → t.eventQueue = [] := by
  intro ht
  cases a with
  | receive ev =>
    cases h
    exact absurd ht (receive_idle hn)
  | lockWait =>
    dsimp only [step, lockWait] at h
    split at h
    · next hw =>
      cases h
      exact hs (by rw [hw]; trivial)
    · cases h
  | spurious =>
    dsimp only [step, spurious] at h
    split at h
    · cases h
      exact ht.elim
    · cases h
  | drain =>
    dsimp only [step, drain] at h
    split at h
    · cases h
      exact test_idle ht
    · cases h
      exact test_idle ht
    · cases h
  | call =>
    dsimp only [step, call] at h
    split at h
    · cases h
      exact ht.elim
    · cases h
  | setCallback function =>
    cases h
    exact hs ht

/-- **When no event waits behind a waiting worker.** -/
theorem waiting_queue_empty (defaultCallback : C) (as : List (Act E C)) (s : State E C)
    (h : run step (init defaultCallback) as = some s) :
    (Along step (fun t a => ¬ Misses t a) (init defaultCallback) as → s.worker = .waiting →
      s.eventQueue = []) ∧
    (∀ ev, Misses s (.receive ev) →
      ∃ t, run step s [.receive ev, .lockWait] = some t ∧ t.worker = .waiting ∧
        t.eventQueue ≠ []) := by
  constructor
  · intro hC hw
    have hinv := run_inv_along (I := fun t => Idle t.worker → t.eventQueue = [])
      (fun t a u hn hI hu => idle_step hn hI hu) hC (fun _ => rfl) h
    exact hinv (by rw [hw]; trivial)
  · intro ev htop
    refine ⟨{ s with eventQueue := s.eventQueue ++ [ev], worker := .waiting }, ?_, rfl, by simp⟩
    obtain ⟨eventQueue, worker, cf, calls⟩ := s
    cases htop
    rfl

/-- two events arrive while the worker waits; it calls the callback for both -/
def twoEvents : List (Act Nat Nat) :=
  [.lockWait, .receive 5, .receive 6, .drain, .call, .drain, .call, .drain, .lockWait]

theorem waiting_queue_empty_two :
    Along step (fun t a => ¬ Misses t a) (init 0) twoEvents ∧
      (⟨[], .waiting, 0, [(0, 5), (0, 6)]⟩ : State Nat Nat).eventQueue = [] ∧
      ∃ t, run step (init 0) [Act.receive 5, .lockWait] = some (t : State Nat Nat) ∧
        t.worker = .waiting ∧ t.eventQueue ≠ [] :=
  ⟨by decide, (waiting_queue_empty 0 twoEvents _ (by decide)).1 (by decide) rfl,
    (waiting_queue_empty 0 [] (init 0) rfl).2 5 rfl⟩

/-- The selector runs before the worker: the first event waits for a second one. -/
theorem first_event_waits :
    ¬ ∀ (as : List (Act Nat Nat)) (s : State Nat Nat), run step (init 0) as = some s →
      s.worker = .waiting → s.eventQueue = [] := by
  intro h
  have hrun : run step (init 0) [Act.receive 5, .lockWait] =
      some (⟨[5], .waiting, 0, []⟩ : State Nat Nat) := by decide
  exact absurd (h _ _ hrun rfl) (by decide)

/-! ## the channel of events -/

theorem receive_eff (s : State E C) (ev : E) :
    (receive s ev).eventQueue = s.eventQueue ++ [ev] ∧ (receive s ev).cf = s.cf ∧
    (receive s ev).calls = s.calls := by
  unfold receive signal
  cases s.worker <;> exact ⟨rfl, rfl, rfl⟩

/-- the event that the worker has taken and not yet passed to a callback -/
def held : Pc E → List E
  | .calling ev => [ev]
  | _ => []

/-- what the worker has taken, and what waits in `event_queue` -/
def channel (s : State E C) : Channel E := ⟨s.calls.map Prod.snd ++ held s.worker, s.eventQueue⟩

def Act.received : Act E C → List E
  | .receive ev => [ev]
  | _ => []

theorem test_channel {s : State E C} (hh : held s.worker = []) :
    ∃ bs, run Channel.step (channel s) bs = some (channel (test s)) ∧
      bs.flatMap Channel.Act.sent = [] := by
  unfold test channel
  rw [hh]
  split
  · next hq => exact ⟨[], by simp [hq, held], rfl⟩
  · next ev rest hq =>
    refine ⟨[.take], ?_, rfl⟩
    rw [hq, Channel.run_take, List.append_nil]
    rfl

theorem channel_step {s t : State E C} {a : Act E C} (h : step s a = some t) :
    ∃ bs, run Channel.step (channel s) bs = some (channel t) ∧
      bs.flatMap Channel.Act.sent = a.received := by
  cases a with
  | receive ev =>
    cases h
    have hheld : held (receive s ev).worker = held s.worker := by
      unfold receive signal
      cases hw : s.worker <;> rfl
    obtain ⟨hq, _, hc⟩ := receive_eff s ev
    refine ⟨[.put ev], ?_, rfl⟩
    unfold channel
    rw [hheld, hq, hc]
    rfl
  | lockWait =>
    dsimp only [step, lockWait] at h
    split at h
    · next hw =>
      cases h
      exact ⟨[], by simp [channel, hw, held], rfl⟩
    · cases h
  | spurious =>
    dsimp only [step, spurious] at h
    split at h
    · next hw =>
      cases h
      exact ⟨[], by simp [channel, hw, held], rfl⟩
    · cases h
  | drain =>
    dsimp only [step, drain] at h
    split at h
    · next hw =>
      cases h
      exact test_channel (by rw [hw]; rfl)
    · next hw =>
      cases h
      exact test_channel (by rw [hw]; rfl)
    · cases h
  | call =>
    dsimp only [step, call] at h
    split at h
    · next hw =>
      cases h
      exact ⟨[], by simp [channel, hw, held], rfl⟩
    · cases h
  | setCallback function =>
    cases h
    exact ⟨[], rfl, rfl⟩

theorem refines_channel {defaultCallback : C} {as : List (Act E C)} {s : State E C}
    (h : run step (init defaultCallback) as = some s) :
    ∃ bs, run Channel.step Channel.empty bs = some (channel s) ∧
      bs.flatMap Channel.Act.sent = as.flatMap Act.received :=
  run_sim_fun channel Act.received Channel.Act.sent (fun _ _ _ hu => channel_step hu) h

end EventPath
end BA
