import BlackadderJNI.Native.EventDecode
import BlackadderJNI.Native.EventPath

/-!
# The selector and the worker, statement by statement

Translation of `NB_Blackadder::worker` and of the receiving half of `NB_Blackadder::selector`, with
`worker_mutex` and the two nested loops of the worker explicit.  One step is one statement of one
thread, or a spurious wake-up.

* `State`, `step`        the two threads;
* `Sim`                  what ties a state to the critical sections of `EventPath`;
* `refines_eventPath`    the statements simulate the critical sections;
* `calls_append_queue`   events reach the callback once and in order, and the worker never looks
                         at the front of an empty queue.
-/

namespace BA
namespace WorkerLoop
open Run

inductive Thread where
  | selector
  | worker
  deriving DecidableEq, Repr

/-- where the selector stands; the event is the one it has made of a datagram -/
inductive SelectorPc where
  | read
  | lock (ev : Event)
  | push (ev : Event)
  | signal
  | unlock

/-- where the worker stands: before the statement of this name, in `pthread_cond_wait` (`waiting`),
or signalled there and about to take the mutex again (`woken`); `undefined` is `front` or `pop`
on an empty queue -/
inductive WorkerPc where
  | lock
  | wait
  | waiting
  | woken
  | test
  | front
  | pop (ev : Event)
  | unlock (ev : Event)
  | call (ev : Event)
  | relock
  | unlockTop
  | undefined

structure State (C : Type) where
  eventQueue : List Event
  /-- the holder of `worker_mutex` -/
  mutex : Option Thread
  selector : SelectorPc
  worker : WorkerPc
  cf : C
  calls : List (C × Event)

variable {C : Type}

def init (defaultCallback : C) : State C where
  eventQueue := []
  mutex := none
  selector := .read
  worker := .lock
  cf := defaultCallback
  calls := []

/-! ## the selector -/

/-- the socket is readable -/
def read (s : State C) (r : Reply) : Option (State C) :=
  match s.selector with
  | .read =>
    match NBBlackadder.selectorEvent r with
    | some ev => some { s with selector := .lock ev }
    | none => some s
  | _ => none

def selectorLock (s : State C) : Option (State C) :=
  match s.selector with
  | .lock ev =>
    if s.mutex = none then some { s with selector := .push ev, mutex := some .selector } else none
  | _ => none

def push (s : State C) : Option (State C) :=
  match s.selector with
  | .push ev => some { s with eventQueue := s.eventQueue ++ [ev], selector := .signal }
  | _ => none

/-- `pthread_cond_signal(&worker_cond)` -/
def wake : WorkerPc → WorkerPc
  | .waiting => .woken
  | pc => pc

def signal (s : State C) : Option (State C) :=
  match s.selector with
  | .signal => some { s with worker := wake s.worker, selector := .unlock }
  | _ => none

def selectorUnlock (s : State C) : Option (State C) :=
  match s.selector with
  | .unlock => some { s with selector := .read, mutex := none }
  | _ => none

/-! ## the worker -/

/-- the next statement of the worker -/
def work (s : State C) : Option (State C) :=
  match s.worker with
  | .lock => if s.mutex = none then some { s with worker := .wait, mutex := some .worker } else none
  | .wait => some { s with worker := .waiting, mutex := none }
  | .waiting => none
  | .woken =>
    if s.mutex = none then some { s with worker := .test, mutex := some .worker } else none
  | .test =>
    if 0 < s.eventQueue.length then some { s with worker := .front }
    else some { s with worker := .unlockTop }
  | .front =>
    match s.eventQueue with
    | [] => some { s with worker := .undefined }
    | ev :: _ => some { s with worker := .pop ev }
  | .pop ev =>
    match s.eventQueue with
    | [] => some { s with worker := .undefined }
    | _ :: rest => some { s with eventQueue := rest, worker := .unlock ev }
  | .unlock ev => some { s with worker := .call ev, mutex := none }
  | .call ev => some { s with calls := s.calls ++ [(s.cf, ev)], worker := .relock }
  | .relock =>
    if s.mutex = none then some { s with worker := .test, mutex := some .worker } else none
  | .unlockTop => some { s with worker := .lock, mutex := none }
  | .undefined => none

def spurious (s : State C) : Option (State C) :=
  match s.worker with
  | .waiting => some { s with worker := .woken }
  | _ => none

inductive Act (C : Type) where
  | read (r : Reply)
  | selectorLock
  | push
  | signal
  | selectorUnlock
  | work
  | spurious
  | setCallback (function : C)

def step (s : State C) : Act C → Option (State C)
  | .read r => read s r
  | .selectorLock => selectorLock s
  | .push => push s
  | .signal => signal s
  | .selectorUnlock => selectorUnlock s
  | .work => work s
  | .spurious => spurious s
  | .setCallback function => some { s with cf := function }

/-- the event the selector has made and not yet pushed -/
def inHand : SelectorPc → List Event
  | .lock ev => [ev]
  | .push ev => [ev]
  | _ => []

/-- the event the worker has popped and not yet passed to a callback -/
def held : WorkerPc → List Event
  | .unlock ev => [ev]
  | .call ev => [ev]
  | _ => []

/-- the events the selector makes, in the order of its reads -/
def Act.created : Act C → List Event
  | .read r => (NBBlackadder.selectorEvent r).toList
  | _ => []

/-! ## the simulation -/

/-- the selector has pushed and not yet signalled -/
def SelectorPc.signalling : SelectorPc → Prop
  | .signal => True
  | _ => False

/-- the worker among the critical sections: a push counts as signalled at once, and the queue as
drained when the worker pops or finds it empty -/
inductive Place (sel : SelectorPc) : WorkerPc → EventPath.Pc Event → Prop
  | lock : Place sel .lock .top
  | wait : Place sel .wait .top
  | waiting (h : ¬ sel.signalling) : Place sel .waiting .waiting
  | signalled (h : sel.signalling) : Place sel .waiting .woken
  | woken : Place sel .woken .woken
  | test {pc : EventPath.Pc Event} (h : pc = .woken ∨ pc = .relock) : Place sel .test pc
  | front {pc : EventPath.Pc Event} (h : pc = .woken ∨ pc = .relock) : Place sel .front pc
  | pop (ev : Event) {pc : EventPath.Pc Event} (h : pc = .woken ∨ pc = .relock) :
      Place sel (.pop ev) pc
  | unlock (ev : Event) : Place sel (.unlock ev) (.calling ev)
  | call (ev : Event) : Place sel (.call ev) (.calling ev)
  | relock : Place sel .relock .relock
  | unlockTop : Place sel .unlockTop .top

/-- the selector holds the mutex at these statements -/
def SelectorPc.inside : SelectorPc → Prop
  | .push _ | .signal | .unlock => True
  | _ => False

/-- the worker holds the mutex at these statements -/
def WorkerPc.inside : WorkerPc → Prop
  | .wait | .test | .front | .pop _ | .unlock _ | .unlockTop => True
  | _ => False

/-- what the worker knows of the queue inside its critical section -/
def Knows (queue : List Event) : WorkerPc → Prop
  | .front => queue ≠ []
  | .pop ev => queue.head? = some ev
  | _ => True

structure Sim (s : State C) (u : EventPath.State Event C) : Prop where
  queue : u.eventQueue = s.eventQueue
  cf : u.cf = s.cf
  calls : u.calls = s.calls
  place : Place s.selector s.worker u.worker
  selector : s.selector.inside ↔ s.mutex = some .selector
  worker : s.worker.inside ↔ s.mutex = some .worker
  knows : Knows s.eventQueue s.worker

/-- the place depends on the selector only while the worker waits -/
theorem Place.of_ne_waiting {sel sel' : SelectorPc} {w : WorkerPc} {pc : EventPath.Pc Event}
    (h : Place sel w pc) (hw : w ≠ .waiting) : Place sel' w pc := by
  cases h with
  | waiting _ => exact absurd rfl hw
  | signalled _ => exact absurd rfl hw
  | lock => exact .lock
  | wait => exact .wait
  | woken => exact .woken
  | test h => exact .test h
  | front h => exact .front h
  | pop ev h => exact .pop ev h
  | unlock ev => exact .unlock ev
  | call ev => exact .call ev
  | relock => exact .relock
  | unlockTop => exact .unlockTop

theorem Place.congr {sel sel' : SelectorPc} {w : WorkerPc} {pc : EventPath.Pc Event}
    (h : Place sel w pc) (e : sel.signalling ↔ sel'.signalling) : Place sel' w pc := by
  cases w with
  | waiting =>
    cases h with
    | waiting h => exact .waiting fun h' => h (e.mpr h')
    | signalled h => exact .signalled (e.mp h)
  | _ => exact h.of_ne_waiting nofun

/-- outside the mutex of the other thread -/
theorem Sim.exclusive {s : State C} {u : EventPath.State Event C} (h : Sim s u)
    (hs : s.selector.inside) : ¬ s.worker.inside := by
  intro hw
  have e := (h.selector.mp hs).symm.trans (h.worker.mp hw)
  cases e

theorem Knows.outside {queue : List Event} {w : WorkerPc} (h : ¬ w.inside) : Knows queue w := by
  cases w with
  | front => exact absurd trivial h
  | pop ev => exact absurd trivial h
  | _ => trivial

/-! ## the statements of the selector -/

/-- the answer of the critical sections to one statement -/
def Answer (s t : State C) (u : EventPath.State Event C) (created : List Event) : Prop :=
  ∃ bs v, run EventPath.step u bs = some v ∧ Sim t v ∧
    bs.flatMap EventPath.Act.received ++ inHand t.selector = inHand s.selector ++ created

theorem sim_read {s t : State C} {u : EventPath.State Event C} {r : Reply} (hs : Sim s u)
    (h : read s r = some t) : Answer s t u (NBBlackadder.selectorEvent r).toList := by
  unfold read at h
  split at h
  next hpc =>
    have hout : s.mutex ≠ some .selector := fun hm => by
      have hin := hs.selector.mpr hm
      rw [hpc] at hin
      exact hin
    split at h
    · next ev hev =>
      cases h
      refine ⟨[], u, rfl, ⟨hs.queue, hs.cf, hs.calls, hs.place.congr ?_, ?_, hs.worker,
        hs.knows⟩, ?_⟩
      · rw [hpc]
        exact Iff.rfl
      · exact ⟨fun hin => hin.elim, fun hm => absurd hm hout⟩
      · rw [hpc, hev]
        rfl
    · next hev =>
      cases h
      refine ⟨[], u, rfl, hs, ?_⟩
      rw [hev]
      exact (List.append_nil _).symm
  · cases h

theorem sim_selectorLock {s t : State C} {u : EventPath.State Event C} (hs : Sim s u)
    (h : selectorLock s = some t) : Answer s t u [] := by
  unfold selectorLock at h
  split at h
  next ev hpc =>
    obtain ⟨hfree, e⟩ := Option.ite_none_right_eq_some.mp h
    cases e
    have hout : ¬ s.worker.inside := fun hin => by
      have hm := hs.worker.mp hin
      rw [hfree] at hm
      cases hm
    refine ⟨[], u, rfl, ⟨hs.queue, hs.cf, hs.calls, hs.place.congr ?_, ?_, ?_, hs.knows⟩, ?_⟩
    · rw [hpc]
      exact Iff.rfl
    · exact ⟨fun _ => rfl, fun _ => trivial⟩
    · exact ⟨fun hin => absurd hin hout, fun hm => by cases hm⟩
    · rw [hpc]
      rfl
  · cases h

/-- a push reaches the worker as a signal at once -/
theorem place_receive {sel sel' : SelectorPc} {w : WorkerPc} {u : EventPath.State Event C}
    (ev : Event) (h : Place sel w u.worker) (hn : ¬ sel.signalling) (hs : sel'.signalling) :
    Place sel' w (EventPath.receive u ev).worker := by
  obtain ⟨queue, worker, cf, calls⟩ := u
  cases h with
  | waiting _ => exact .signalled hs
  | signalled h => exact absurd h hn
  | lock => exact .lock
  | wait => exact .wait
  | woken => exact .woken
  | test h =>
    rcases h with rfl | rfl
    · exact .test (Or.inl rfl)
    · exact .test (Or.inr rfl)
  | front h =>
    rcases h with rfl | rfl
    · exact .front (Or.inl rfl)
    · exact .front (Or.inr rfl)
  | pop ev h =>
    rcases h with rfl | rfl
    · exact .pop ev (Or.inl rfl)
    · exact .pop ev (Or.inr rfl)
  | unlock ev => exact .unlock ev
  | call ev => exact .call ev
  | relock => exact .relock
  | unlockTop => exact .unlockTop

theorem sim_push {s t : State C} {u : EventPath.State Event C} (hs : Sim s u)
    (h : push s = some t) : Answer s t u [] := by
  unfold push at h
  split at h
  next ev hpc =>
    cases h
    have hin : s.selector.inside := by
      rw [hpc]
      trivial
    obtain ⟨hq, hc, hcalls⟩ := EventPath.receive_eff u ev
    refine ⟨[.receive ev], EventPath.receive u ev, rfl, ⟨?_, ?_, ?_, ?_, ?_, hs.worker, ?_⟩, ?_⟩
    · rw [hq, hs.queue]
    · rw [hc, hs.cf]
    · rw [hcalls, hs.calls]
    · refine place_receive ev hs.place ?_ trivial
      rw [hpc]
      exact id
    · exact ⟨fun _ => hs.selector.mp hin, fun _ => trivial⟩
    · exact Knows.outside (hs.exclusive hin)
    · rw [hpc]
      rfl
  · cases h

theorem place_wake {w : WorkerPc} {pc : EventPath.Pc Event} (h : Place .signal w pc) :
    Place .unlock (wake w) pc := by
  cases w with
  | waiting =>
    cases h with
    | waiting h => exact absurd trivial h
    | signalled _ => exact .woken
  | _ => exact h.of_ne_waiting nofun

theorem wake_inside (w : WorkerPc) : (wake w).inside ↔ w.inside := by
  cases w <;> exact Iff.rfl

theorem sim_signal {s t : State C} {u : EventPath.State Event C} (hs : Sim s u)
    (h : signal s = some t) : Answer s t u [] := by
  unfold signal at h
  split at h
  next hpc =>
    cases h
    have hin : s.selector.inside := by
      rw [hpc]
      trivial
    refine ⟨[], u, rfl, ⟨hs.queue, hs.cf, hs.calls, place_wake (hpc ▸ hs.place), ?_, ?_, ?_⟩, ?_⟩
    · exact ⟨fun _ => hs.selector.mp hin, fun _ => trivial⟩
    · exact (wake_inside s.worker).trans hs.worker
    · exact Knows.outside fun hw => hs.exclusive hin ((wake_inside s.worker).mp hw)
    · rw [hpc]
      rfl
  · cases h

theorem sim_selectorUnlock {s t : State C} {u : EventPath.State Event C} (hs : Sim s u)
    (h : selectorUnlock s = some t) : Answer s t u [] := by
  unfold selectorUnlock at h
  split at h
  next hpc =>
    cases h
    have hin : s.selector.inside := by
      rw [hpc]
      trivial
    refine ⟨[], u, rfl, ⟨hs.queue, hs.cf, hs.calls, hs.place.congr ?_, ?_, ?_, hs.knows⟩, ?_⟩
    · rw [hpc]
      exact Iff.rfl
    · exact ⟨fun hin => hin.elim, fun hm => by cases hm⟩
    · exact ⟨fun hw => absurd hw (hs.exclusive hin), fun hm => by cases hm⟩
    · rw [hpc]
      rfl
  · cases h

/-! ## the statements of the worker -/

/-! The statements that the critical sections do not see. -/

section
variable {sel : SelectorPc} {pc : EventPath.Pc Event}

theorem Place.wait_of_lock (h : Place sel .lock pc) : Place sel .wait pc := by
  cases h
  exact .wait

theorem Place.test_of_woken (h : Place sel .woken pc) : Place sel .test pc := by
  cases h
  exact .test (Or.inl rfl)

theorem Place.test_of_relock (h : Place sel .relock pc) : Place sel .test pc := by
  cases h
  exact .test (Or.inr rfl)

theorem Place.call_of_unlock {ev : Event} (h : Place sel (.unlock ev) pc) :
    Place sel (.call ev) pc := by
  cases h
  exact .call ev

theorem Place.lock_of_unlockTop (h : Place sel .unlockTop pc) : Place sel .lock pc := by
  cases h
  exact .lock

end

/-- the worker takes the free mutex -/
theorem sim_take {s : State C} {u : EventPath.State Event C} (hs : Sim s u) {w : WorkerPc}
    (hfree : s.mutex = none) (hplace : Place s.selector w u.worker) (hin : w.inside)
    (hknows : Knows s.eventQueue w) :
    Answer s { s with worker := w, mutex := some .worker } u [] := by
  have hout : ¬ s.selector.inside := fun hsel => by
    have hm := hs.selector.mp hsel
    rw [hfree] at hm
    cases hm
  refine ⟨[], u, rfl, ⟨hs.queue, hs.cf, hs.calls, hplace, ?_, ?_, hknows⟩, ?_⟩
  · exact ⟨fun hsel => absurd hsel hout, fun hm => by cases hm⟩
  · exact ⟨fun _ => rfl, fun _ => hin⟩
  · exact (List.append_nil _).symm

/-- the worker goes on with the mutex in its hand -/
theorem sim_inside {s : State C} {u : EventPath.State Event C} (hs : Sim s u) {w : WorkerPc}
    {queue : List Event} (hheld : s.worker.inside) (hin : w.inside) (hknows : Knows queue w)
    (bs : List (EventPath.Act Event C)) {v : EventPath.State Event C}
    (hrun : run EventPath.step u bs = some v) (hsent : bs.flatMap EventPath.Act.received = [])
    (hq : v.eventQueue = queue) (hcf : v.cf = u.cf) (hcalls : v.calls = u.calls)
    (hplace : Place s.selector w v.worker) :
    Answer s { s with worker := w, eventQueue := queue } u [] := by
  refine ⟨bs, v, hrun, ⟨hq, hcf.trans hs.cf, hcalls.trans hs.calls, hplace, hs.selector, ?_,
    hknows⟩, ?_⟩
  · exact ⟨fun _ => hs.worker.mp hheld, fun _ => hin⟩
  · rw [hsent, List.append_nil]
    rfl

/-- the worker gives the mutex back -/
theorem sim_leave {s : State C} {u : EventPath.State Event C} (hs : Sim s u) {w : WorkerPc}
    (hheld : s.worker.inside) (hout : ¬ w.inside) (bs : List (EventPath.Act Event C))
    {v : EventPath.State Event C} (hrun : run EventPath.step u bs = some v)
    (hsent : bs.flatMap EventPath.Act.received = []) (hq : v.eventQueue = u.eventQueue)
    (hcf : v.cf = u.cf) (hcalls : v.calls = u.calls) (hplace : Place s.selector w v.worker) :
    Answer s { s with worker := w, mutex := none } u [] := by
  refine ⟨bs, v, hrun, ⟨hq.trans hs.queue, hcf.trans hs.cf, hcalls.trans hs.calls, hplace, ?_, ?_,
    Knows.outside hout⟩, ?_⟩
  · exact ⟨fun hsel => absurd hheld (hs.exclusive hsel), fun hm => by cases hm⟩
  · exact ⟨fun hin => absurd hin hout, fun hm => by cases hm⟩
  · rw [hsent, List.append_nil]
    rfl

/-- `drain` on an empty queue, and on one with a first event -/
theorem run_drain_empty {u : EventPath.State Event C}
    (hpc : u.worker = .woken ∨ u.worker = .relock) (hq : u.eventQueue = []) :
    run EventPath.step u [.drain] = some { u with worker := .top } := by
  obtain ⟨queue, worker, cf, calls⟩ := u
  cases hq
  rcases hpc with rfl | rfl <;> rfl

theorem run_drain_cons {u : EventPath.State Event C} {ev : Event} {rest : List Event}
    (hpc : u.worker = .woken ∨ u.worker = .relock) (hq : u.eventQueue = ev :: rest) :
    run EventPath.step u [.drain] = some { u with eventQueue := rest, worker := .calling ev } := by
  obtain ⟨queue, worker, cf, calls⟩ := u
  cases hq
  rcases hpc with rfl | rfl <;> rfl

theorem inside_of_eq {s : State C} {w : WorkerPc} (hw : s.worker = w) (hin : w.inside) :
    s.worker.inside := hw.symm ▸ hin

theorem sim_wait {s t : State C} {u : EventPath.State Event C} (hs : Sim s u)
    (hw : s.worker = .wait) (h : work s = some t) : Answer s t u [] := by
  have hplace := hs.place
  have hheld := inside_of_eq hw trivial
  unfold work at h
  rw [hw] at h hplace
  cases h
  have hsel : ¬ s.selector.signalling := fun hsig => by
    have hin : s.selector.inside := by
      cases hp : s.selector with
      | signal => trivial
      | _ =>
        rw [hp] at hsig
        exact hsig.elim
    exact hs.exclusive hin hheld
  have hrun : run EventPath.step u [.lockWait] = some { u with worker := .waiting } := by
    obtain ⟨queue, worker, cf, calls⟩ := u
    cases hplace
    rfl
  exact sim_leave hs hheld id _ hrun rfl rfl rfl rfl (.waiting hsel)

theorem sim_test {s t : State C} {u : EventPath.State Event C} (hs : Sim s u)
    (hw : s.worker = .test) (h : work s = some t) : Answer s t u [] := by
  have hplace := hs.place
  have hheld := inside_of_eq hw trivial
  unfold work at h
  rw [hw] at h hplace
  cases hplace with
  | test hpc =>
    dsimp only at h
    split at h
    · next hpos =>
      cases h
      exact sim_inside hs hheld trivial (List.ne_nil_of_length_pos hpos) [] rfl rfl hs.queue
        rfl rfl (.front hpc)
    · next hnil =>
      cases h
      have hq : s.eventQueue = [] := List.eq_nil_of_length_eq_zero (by omega)
      exact sim_inside hs hheld trivial trivial _ (run_drain_empty hpc (hs.queue.trans hq)) rfl
        hs.queue rfl rfl .unlockTop

theorem sim_front {s t : State C} {u : EventPath.State Event C} (hs : Sim s u)
    (hw : s.worker = .front) (h : work s = some t) : Answer s t u [] := by
  have hplace := hs.place
  have hknows := hs.knows
  have hheld := inside_of_eq hw trivial
  unfold work at h
  rw [hw] at h hplace hknows
  cases hplace with
  | front hpc =>
    cases hq : s.eventQueue with
    | nil => exact absurd hq hknows
    | cons ev rest =>
      rw [hq] at h
      cases h
      exact sim_inside hs hheld trivial rfl [] rfl rfl (hs.queue.trans hq) rfl rfl (.pop ev hpc)

theorem sim_pop {s t : State C} {u : EventPath.State Event C} (hs : Sim s u) {ev : Event}
    (hw : s.worker = .pop ev) (h : work s = some t) : Answer s t u [] := by
  have hplace := hs.place
  have hknows := hs.knows
  have hheld := inside_of_eq hw trivial
  unfold work at h
  rw [hw] at h hplace hknows
  cases hplace with
  | pop _ hpc =>
    cases hq : s.eventQueue with
    | nil =>
      rw [hq] at hknows
      cases hknows
    | cons ev' rest =>
      rw [hq] at h hknows
      cases h
      cases hknows
      exact sim_inside hs hheld trivial trivial _ (run_drain_cons hpc (hs.queue.trans hq)) rfl rfl
        rfl rfl (.unlock ev)

theorem sim_call {s t : State C} {u : EventPath.State Event C} (hs : Sim s u) {ev : Event}
    (hw : s.worker = .call ev) (h : work s = some t) : Answer s t u [] := by
  have hplace := hs.place
  have hout : ¬ s.worker.inside := by
    rw [hw]
    exact id
  unfold work at h
  rw [hw] at h hplace
  cases h
  have hrun : run EventPath.step u [.call] =
      some { u with calls := u.calls ++ [(u.cf, ev)], worker := .relock } := by
    obtain ⟨queue, worker, cf, calls⟩ := u
    cases hplace
    rfl
  refine ⟨[.call], _, hrun, ⟨hs.queue, hs.cf, ?_, .relock, hs.selector, ?_, trivial⟩, ?_⟩
  · rw [hs.calls, hs.cf]
  · exact ⟨fun hin => hin.elim, fun hm => absurd (hs.worker.mpr hm) hout⟩
  · exact (List.append_nil _).symm

theorem sim_work {s t : State C} {u : EventPath.State Event C} (hs : Sim s u)
    (h : work s = some t) : Answer s t u [] := by
  have hplace := hs.place
  cases hw : s.worker with
  | lock =>
    unfold work at h
    rw [hw] at h hplace
    obtain ⟨hfree, e⟩ := Option.ite_none_right_eq_some.mp h
    cases e
    exact sim_take hs hfree hplace.wait_of_lock trivial trivial
  | wait => exact sim_wait hs hw h
  | waiting =>
    unfold work at h
    rw [hw] at h
    cases h
  | woken =>
    unfold work at h
    rw [hw] at h hplace
    obtain ⟨hfree, e⟩ := Option.ite_none_right_eq_some.mp h
    cases e
    exact sim_take hs hfree hplace.test_of_woken trivial trivial
  | test => exact sim_test hs hw h
  | front => exact sim_front hs hw h
  | pop ev => exact sim_pop hs hw h
  | unlock ev =>
    have hheld := inside_of_eq hw trivial
    unfold work at h
    rw [hw] at h hplace
    cases h
    exact sim_leave hs hheld id [] rfl rfl rfl rfl rfl hplace.call_of_unlock
  | call ev => exact sim_call hs hw h
  | relock =>
    unfold work at h
    rw [hw] at h hplace
    obtain ⟨hfree, e⟩ := Option.ite_none_right_eq_some.mp h
    cases e
    exact sim_take hs hfree hplace.test_of_relock trivial trivial
  | unlockTop =>
    have hheld := inside_of_eq hw trivial
    unfold work at h
    rw [hw] at h hplace
    cases h
    exact sim_leave hs hheld id [] rfl rfl rfl rfl rfl hplace.lock_of_unlockTop
  | undefined =>
    unfold work at h
    rw [hw] at h
    cases h

theorem sim_spurious {s t : State C} {u : EventPath.State Event C} (hs : Sim s u)
    (h : spurious s = some t) : Answer s t u [] := by
  have hplace := hs.place
  unfold spurious at h
  split at h
  next hw =>
    cases h
    have hout : ¬ s.worker.inside := by
      rw [hw]
      exact id
    have answer : ∀ (bs : List (EventPath.Act Event C)) (v : EventPath.State Event C),
        run EventPath.step u bs = some v → bs.flatMap EventPath.Act.received = [] →
        v = { u with worker := .woken } → Answer s { s with worker := .woken } u [] := by
      intro bs v hrun hsent hv
      refine ⟨bs, v, hrun, ?_, by rw [hsent, List.append_nil]; rfl⟩
      rw [hv]
      exact ⟨hs.queue, hs.cf, hs.calls, .woken, hs.selector,
        ⟨fun hin => hin.elim, fun hm => absurd (hs.worker.mpr hm) hout⟩, trivial⟩
    rw [hw] at hplace
    obtain ⟨queue, worker, cf, calls⟩ := u
    cases hplace with
    | waiting _ => exact answer [.spurious] _ rfl rfl rfl
    | signalled _ => exact answer [] _ rfl rfl rfl
  · cases h

/-! ## whole runs -/

theorem sim_step {s t : State C} {u : EventPath.State Event C} {a : Act C} (hs : Sim s u)
    (h : step s a = some t) : Answer s t u a.created := by
  cases a with
  | read r => exact sim_read hs h
  | selectorLock => exact sim_selectorLock hs h
  | push => exact sim_push hs h
  | signal => exact sim_signal hs h
  | selectorUnlock => exact sim_selectorUnlock hs h
  | work => exact sim_work hs h
  | spurious => exact sim_spurious hs h
  | setCallback function =>
    cases h
    refine ⟨[.setCallback function], { u with cf := function }, rfl,
      ⟨hs.queue, rfl, hs.calls, hs.place, hs.selector, hs.worker, hs.knows⟩, ?_⟩
    exact (List.append_nil _).symm

theorem Sim.init (defaultCallback : C) :
    Sim (init defaultCallback) (EventPath.init defaultCallback) where
  queue := rfl
  cf := rfl
  calls := rfl
  place := .lock
  selector := ⟨fun h => h.elim, fun h => by cases h⟩
  worker := ⟨fun h => h.elim, fun h => by cases h⟩
  knows := trivial

theorem Sim.defined {s : State C} {u : EventPath.State Event C} (hs : Sim s u) :
    s.worker ≠ .undefined := by
  intro hw
  have hplace := hs.place
  rw [hw] at hplace
  cases hplace

/-- **The statements simulate the critical sections.** -/
theorem refines_eventPath {defaultCallback : C} {as : List (Act C)} {s : State C}
    (h : run step (init defaultCallback) as = some s) :
    ∃ bs u, run EventPath.step (EventPath.init defaultCallback) bs = some u ∧ Sim s u ∧
      bs.flatMap EventPath.Act.received ++ inHand s.selector = as.flatMap Act.created := by
  refine run_hist (I := fun t done => ∃ bs u,
      run EventPath.step (EventPath.init defaultCallback) bs = some u ∧ Sim t u ∧
      bs.flatMap EventPath.Act.received ++ inHand t.selector = done.flatMap Act.created)
    ⟨[], _, rfl, Sim.init defaultCallback, rfl⟩ (fun t done a t' ht ha => ?_) h
  obtain ⟨bs, u, hbs, hsim, hsent⟩ := ht
  obtain ⟨cs, v, hcs, hsim', hsent'⟩ := sim_step hsim ha
  refine ⟨bs ++ cs, v, run_trans _ hbs hcs, hsim', ?_⟩
  rw [List.flatMap_append, List.append_assoc, hsent', ← List.append_assoc, hsent,
    List.flatMap_append]
  simp

/-- the worker holds an event in the critical sections exactly when it holds it here -/
theorem Place.held_eq {sel : SelectorPc} {w : WorkerPc} {pc : EventPath.Pc Event}
    (h : Place sel w pc) : EventPath.held pc = held w := by
  cases h with
  | test h => rcases h with rfl | rfl <;> rfl
  | front h => rcases h with rfl | rfl <;> rfl
  | pop ev h => rcases h with rfl | rfl <;> rfl
  | _ => rfl

/-- **Events go through once and in order.**  What was passed to callbacks, then what the worker
holds, then `event_queue`, then what the selector has made and not yet pushed, are the events the
selector made; between two iterations of the selector it has nothing in its hand; and the worker
never takes the front of an empty queue. -/
theorem calls_append_queue (defaultCallback : C) (as : List (Act C)) (s : State C)
    (h : run step (init defaultCallback) as = some s) :
    s.calls.map Prod.snd ++ held s.worker ++ s.eventQueue ++ inHand s.selector =
      as.flatMap Act.created ∧
    (s.selector = .read →
      s.calls.map Prod.snd ++ held s.worker ++ s.eventQueue = as.flatMap Act.created) ∧
    s.worker ≠ .undefined := by
  obtain ⟨bs, u, hbs, hsim, hsent⟩ := refines_eventPath h
  obtain ⟨cs, hcs, hput⟩ := EventPath.refines_channel hbs
  have horder := Channel.run_order hcs
  rw [hput] at horder
  have hcontent : s.calls.map Prod.snd ++ held s.worker ++ s.eventQueue =
      bs.flatMap EventPath.Act.received := by
    rw [← hsim.calls, ← hsim.place.held_eq, ← hsim.queue]
    exact horder
  have hall : s.calls.map Prod.snd ++ held s.worker ++ s.eventQueue ++ inHand s.selector =
      as.flatMap Act.created := by
    rw [hcontent, hsent]
  refine ⟨hall, fun hread => ?_, hsim.defined⟩
  rw [hread] at hall
  exact (List.append_nil _).symm.trans hall

/-- two datagrams; the second one arrives during the callback for the first one -/
def twoDatagrams : List (Act Nat) :=
  [.work, .work, .read (Reply.whole stopDatagram stopDatagram_length), .selectorLock, .push,
    .spurious, .signal, .selectorUnlock, .work, .work, .work, .work, .work,
    .read (Reply.whole shortDatagram shortDatagram_length), .selectorLock, .push, .setCallback 1,
    .work, .signal, .selectorUnlock, .work, .work, .work, .work]

theorem calls_append_queue_two :
    ∃ s, run step (init 0) twoDatagrams = some s ∧ s.calls.map Prod.fst = [1] ∧
      s.calls.map Prod.snd ++ held s.worker ++ s.eventQueue = twoDatagrams.flatMap Act.created := by
  obtain ⟨s, hrun, hsel, hcf⟩ : ∃ s, run step (init 0) twoDatagrams = some s ∧
      s.selector = .read ∧ s.calls.map Prod.fst = [1] := ⟨_, rfl, rfl, rfl⟩
  exact ⟨s, hrun, hcf, (calls_append_queue 0 twoDatagrams s hrun).2.1 hsel⟩

end WorkerLoop
end BA
