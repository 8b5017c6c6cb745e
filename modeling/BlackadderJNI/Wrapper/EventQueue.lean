import BlackadderJNI.Lib.Bounded
import BlackadderJNI.Wrapper.Pipeline

/-!
# Events through a blocking queue, and the loop that takes them

`BlockingQueueCallback` at the end of the pipeline, with a thread that runs the event loop of
`BlackadderTestNB.java`: it takes an event, looks at it, and frees it.

* `getNextEvent`, `handle`   one round of the loop;
* `Client`, `queueCallback`  the queue, the thread, and what has become of the events;
* `refines_bounded`          the queue is a bounded queue that drops what finds it full;
* `taken_in_order`           what the thread takes is part of what was sent, in order and intact,
                             and all of it as long as no event finds the queue full;
* `loop_frees`               the thread frees every event it takes, once and in order, up to the
                             first one of an unknown type, which ends it.
-/

namespace BA
namespace Wrapper
open Run Pipeline

/-- `take()`, which waits on an empty queue -/
def BlockingQueueCallback.getNextEvent (q : BlockingQueueCallback) :
    Option (BAEvent × BlockingQueueCallback) :=
  match h : q.eventQueue with
  | [] => none
  | event :: rest => some (event, { q with
      eventQueue := rest
      length_le := Nat.le_of_succ_le (by
        have hle := q.length_le
        rw [h] at hle
        exact hle) })

namespace EventQueue

/-- what the loop does with an event: a `switch` on its type, with calls of `getId` and, for
published data, of `getDataLength`; then `freeNativeBuffer` -/
def handle (event : BAEvent) : Except JavaException (BAEvent × Option Mapping) :=
  match event.getType with
  | none => .error .nullPointer
  | some ty => do
    let _ ← event.getId
    if ty = .publishedData then
      let _ ← event.getDataLength
      .ok event.freeNativeBuffer
    else .ok event.freeNativeBuffer

/-- where the thread stands; `died` is an exception that the loop does not catch -/
inductive Pc where
  | take
  | handle (event : BAEvent)
  | died (event : BAEvent)
  | exited

structure Client where
  callback : BlockingQueueCallback
  pc : Pc
  terminated : Bool
  taken : List BAEvent
  /-- what `offer` did not accept -/
  refused : List BAEvent
  /-- what was passed to `deleteEvent` -/
  freed : List Mapping

def init (queueSize : Nat) (h : 0 < queueSize) : Client where
  callback := ⟨queueSize, h, [], Nat.zero_le _⟩
  pc := .take
  terminated := false
  taken := []
  refused := []
  freed := []

/-- `interrupt` is the shutdown hook, `exit` the exception that `take` then throws -/
inductive Act where
  | getNextEvent
  | handle
  | interrupt
  | exit

def eventReceived (c : Client) (event : BAEvent) : Client :=
  { c with
    callback := (c.callback.offer event).1
    refused := if (c.callback.offer event).2 then c.refused else c.refused ++ [event] }

/-- the test of `while (!terminated)` -/
def next (terminated : Bool) : Pc := if terminated then .exited else .take

def step (c : Client) : Act → Option Client
  | .getNextEvent =>
    match c.pc with
    | .take => c.callback.getNextEvent.map fun (event, callback) =>
      { c with callback := callback, pc := .handle event, taken := c.taken ++ [event] }
    | _ => none
  | .handle =>
    match c.pc with
    | .handle event =>
      match handle event with
      | .error _ => some { c with pc := .died event }
      | .ok (_, deleted) =>
        some { c with pc := next c.terminated, freed := c.freed ++ deleted.toList }
    | _ => none
  | .interrupt => some { c with terminated := true }
  | .exit =>
    match c.pc with
    | .take => if c.terminated then some { c with pc := .exited } else none
    | _ => none

def queueCallback : BAWrapperNBCallback Client Act where
  eventReceived := eventReceived
  returned _ := true
  step := step

/-! ## what a step can do -/

theorem getNextEvent_eff {q r : BlockingQueueCallback} {event : BAEvent}
    (h : q.getNextEvent = some (event, r)) :
    q.eventQueue = event :: r.eventQueue ∧ r.queueSize = q.queueSize := by
  unfold BlockingQueueCallback.getNextEvent at h
  split at h
  · cases h
  · next hq =>
    cases h
    exact ⟨hq, rfl⟩

theorem offer_eff (q : BlockingQueueCallback) (event : BAEvent) :
    (q.offer event).1.queueSize = q.queueSize ∧
    ((q.eventQueue.length < q.queueSize ∧ (q.offer event).2 = true ∧
        (q.offer event).1.eventQueue = q.eventQueue ++ [event]) ∨
      (¬ q.eventQueue.length < q.queueSize ∧ (q.offer event).2 = false ∧
        (q.offer event).1.eventQueue = q.eventQueue)) := by
  unfold BlockingQueueCallback.offer
  by_cases h : q.eventQueue.length < q.queueSize
  · rw [dif_pos h]
    exact ⟨rfl, Or.inl ⟨h, rfl, rfl⟩⟩
  · rw [dif_neg h]
    exact ⟨rfl, Or.inr ⟨h, rfl, rfl⟩⟩

theorem handle_eff {event : BAEvent} (hf : event.freed = false) {m : Mapping}
    (hm : event.mapping = some m) :
    (event.type = none ∧ handle event = .error .nullPointer) ∨
    (event.type ≠ none ∧ handle event = .ok (event.afterFree, some m)) := by
  have hfree : event.freeNativeBuffer = (event.afterFree, some m) := by
    unfold BAEvent.freeNativeBuffer
    rw [hf, hm]
    simp [BAEvent.afterFree, hm]
  unfold handle BAEvent.getType
  cases event.type with
  | none => exact Or.inl ⟨rfl, rfl⟩
  | some ty =>
    refine Or.inr ⟨Option.some_ne_none ty, ?_⟩
    have hid : event.getId = .ok event.id := by
      unfold BAEvent.getId BAEvent.unlessFreed
      rw [hf]
      rfl
    have hlen : event.getDataLength = .ok event.dataLength := by
      unfold BAEvent.getDataLength BAEvent.unlessFreed
      rw [hf]
      rfl
    dsimp only
    rw [hid, hlen, hfree]
    show (if ty = .publishedData then _ else _) = _
    split <;> rfl

/-- what a step around the queue can do -/
inductive Effect (c c' : Client) : Act → Prop
  | getNextEvent (event : BAEvent) (callback : BlockingQueueCallback) (pc : c.pc = .take)
      (queue : c.callback.eventQueue = event :: callback.eventQueue)
      (size : callback.queueSize = c.callback.queueSize)
      (eq : c' = { c with
        callback := callback, pc := .handle event, taken := c.taken ++ [event] }) :
      Effect c c' .getNextEvent
  | died (event : BAEvent) (ex : JavaException) (pc : c.pc = .handle event)
      (threw : handle event = .error ex) (eq : c' = { c with pc := .died event }) :
      Effect c c' .handle
  | freed (event event' : BAEvent) (deleted : Option Mapping) (pc : c.pc = .handle event)
      (done : handle event = .ok (event', deleted))
      (eq : c' = { c with pc := next c.terminated, freed := c.freed ++ deleted.toList }) :
      Effect c c' .handle
  | interrupt (eq : c' = { c with terminated := true }) : Effect c c' .interrupt
  | exit (pc : c.pc = .take) (eq : c' = { c with pc := .exited }) : Effect c c' .exit

theorem step_effect {c c' : Client} {a : Act} (h : step c a = some c') : Effect c c' a := by
  cases a with
  | getNextEvent =>
    dsimp only [step] at h
    split at h
    · next hpc =>
      obtain ⟨⟨event, callback⟩, hnext, e⟩ := Option.map_eq_some_iff.mp h
      obtain ⟨hq, hsize⟩ := getNextEvent_eff hnext
      exact .getNextEvent event callback hpc hq hsize e.symm
    · cases h
  | handle =>
    dsimp only [step] at h
    split at h
    · next event hpc =>
      split at h
      · next ex hthrew => exact .died event ex hpc hthrew (Option.some.inj h).symm
      · next event' deleted hdone =>
        exact .freed event event' deleted hpc hdone (Option.some.inj h).symm
    · cases h
  | interrupt => exact .interrupt (Option.some.inj h).symm
  | exit =>
    dsimp only [step] at h
    split at h
    · next hpc =>
      obtain ⟨_, e⟩ := Option.ite_none_right_eq_some.mp h
      exact .exit hpc (Option.some.inj e).symm
    · cases h

/-! ## the queue -/

/-- the queue, and what went through it -/
def bounded (c : Client) : Bounded BAEvent := ⟨c.taken, c.callback.eventQueue, c.refused⟩

theorem eventReceived_bounded (c : Client) (event : BAEvent) :
    (eventReceived c event).callback.queueSize = c.callback.queueSize ∧
    bounded (eventReceived c event) =
      Bounded.offer c.callback.queueSize (bounded c) event := by
  obtain ⟨hsize, ⟨hroom, hin, hq⟩ | ⟨hfull, hout, hq⟩⟩ := offer_eff c.callback event
  · refine ⟨hsize, ?_⟩
    rw [Bounded.offer_room event hroom]
    show Bounded.mk _ (c.callback.offer event).1.eventQueue (if _ then _ else _) = _
    rw [hq, hin]
    rfl
  · refine ⟨hsize, ?_⟩
    rw [Bounded.offer_full event hfull]
    show Bounded.mk _ (c.callback.offer event).1.eventQueue (if _ then _ else _) = _
    rw [hq, hout]
    rfl

theorem bounded_step {c c' : Client} {a : Act} (h : step c a = some c') :
    c'.callback.queueSize = c.callback.queueSize ∧
    ∃ bs, run (Bounded.step c.callback.queueSize) (bounded c) bs = some (bounded c') ∧
      bs.flatMap Bounded.Act.offered = [] := by
  cases step_effect h with
  | getNextEvent event callback _ queue size eq =>
    refine ⟨eq ▸ size, [.take], ?_, rfl⟩
    rw [eq, run_cons]
    show (Bounded.take (bounded c)).bind _ = _
    unfold Bounded.take bounded
    rw [queue]
    rfl
  | died _ _ _ _ eq => exact ⟨by rw [eq], [], by rw [eq]; rfl, rfl⟩
  | freed _ _ _ _ _ eq => exact ⟨by rw [eq], [], by rw [eq]; rfl, rfl⟩
  | interrupt eq => exact ⟨by rw [eq], [], by rw [eq]; rfl, rfl⟩
  | exit _ eq => exact ⟨by rw [eq], [], by rw [eq]; rfl, rfl⟩

/-- **The queue is a bounded queue** that drops what finds it full. -/
theorem refines_bounded {c c' : Client} {as : List (Around Act)}
    (h : run queueCallback.around c as = some c') :
    c'.callback.queueSize = c.callback.queueSize ∧
    ∃ bs, run (Bounded.step c.callback.queueSize) (bounded c) bs = some (bounded c') ∧
      bs.flatMap Bounded.Act.offered = as.flatMap Around.received := by
  have hstep : ∀ d q a d', (d.callback.queueSize = c.callback.queueSize ∧ q = bounded d) →
      queueCallback.around d a = some d' →
      ∃ bs q', run (Bounded.step c.callback.queueSize) q bs = some q' ∧
        (d'.callback.queueSize = c.callback.queueSize ∧ q' = bounded d') ∧
        bs.flatMap Bounded.Act.offered = a.received := by
    rintro d q a d' ⟨hsize, rfl⟩ ha
    cases a with
    | eventReceived event =>
      have hd' : eventReceived d event = d' := Option.some.inj ha
      obtain ⟨hsize', hb⟩ := eventReceived_bounded d event
      rw [hd'] at hsize' hb
      refine ⟨[.offer event], bounded d', ?_, ⟨hsize'.trans hsize, rfl⟩, rfl⟩
      rw [hb, hsize]
      rfl
    | other a =>
      obtain ⟨hsize', bs, hbs, hoffered⟩ := bounded_step ha
      rw [hsize] at hbs hsize'
      exact ⟨bs, bounded d', hbs, ⟨hsize', rfl⟩, hoffered⟩
  obtain ⟨bs, q, hbs, ⟨hsize, rfl⟩, hoffered⟩ := run_sim _ _ _ hstep ⟨rfl, rfl⟩ h
  exact ⟨hsize, bs, hbs, hoffered⟩

/-! ## the loop -/

/-- the event that the loop has taken and not freed -/
def unfreed : Pc → List BAEvent
  | .handle event => [event]
  | .died event => [event]
  | _ => []

theorem unfreed_next (terminated : Bool) : unfreed (next terminated) = [] := by
  cases terminated <;> rfl

/-- mapped to a native event that nobody has freed -/
def Live (event : BAEvent) : Prop := event.freed = false ∧ ∃ m, event.mapping = some m

theorem Live.of_fresh {event : BAEvent} {eventPtr : Addr} (h : Fresh event eventPtr) :
    Live event := by
  obtain ⟨w, hw⟩ := h.mapped
  exact ⟨h.live, _, hw⟩

/-- what is known of the loop, whatever it is offered -/
structure Inv (c : Client) : Prop where
  loop : ∃ done, c.taken = done ++ unfreed c.pc ∧
    c.freed.map some = done.map BAEvent.mapping ∧ ∀ event ∈ done, event.type ≠ none
  died : ∀ event, c.pc = .died event → event.type = none
  queue : ∀ event ∈ c.callback.eventQueue, Live event
  held : ∀ event, c.pc = .handle event → Live event

theorem Inv.init (queueSize : Nat) (h : 0 < queueSize) : Inv (init queueSize h) where
  loop := ⟨[], rfl, rfl, nofun⟩
  died := nofun
  queue := nofun
  held := nofun

theorem Inv.eventReceived {c : Client} (hc : Inv c) {event : BAEvent} (he : Live event) :
    Inv (eventReceived c event) := by
  refine ⟨hc.loop, hc.died, fun e hmem => ?_, hc.held⟩
  have hmem : e ∈ (c.callback.offer event).1.eventQueue := hmem
  obtain ⟨_, ⟨_, _, hq⟩ | ⟨_, _, hq⟩⟩ := offer_eff c.callback event
  · rw [hq] at hmem
    rcases List.mem_append.mp hmem with hmem | hmem
    · exact hc.queue e hmem
    · exact List.mem_singleton.mp hmem ▸ he
  · exact hc.queue e (hq ▸ hmem)

theorem Inv.step {c c' : Client} {a : Act} (hc : Inv c) (h : step c a = some c') : Inv c' := by
  obtain ⟨done, htaken, hfreed, hknown⟩ := hc.loop
  cases step_effect h with
  | getNextEvent event callback pc queue size eq =>
    rw [pc] at htaken
    have hlive : Live event := hc.queue event (queue ▸ List.mem_cons_self)
    rw [eq]
    refine ⟨⟨done, ?_, hfreed, hknown⟩, nofun, fun e he => ?_, ?_⟩
    · show c.taken ++ [event] = done ++ [event]
      rw [htaken]
      exact congrArg (· ++ [event]) (List.append_nil done)
    · exact hc.queue e (queue ▸ List.mem_cons_of_mem event he)
    · rintro e ⟨⟩
      exact hlive
  | died event ex pc threw eq =>
    rw [pc] at htaken
    obtain ⟨hf, m, hm⟩ := hc.held event pc
    rw [eq]
    refine ⟨⟨done, htaken, hfreed, hknown⟩, ?_, hc.queue, nofun⟩
    rintro e ⟨⟩
    rcases handle_eff hf hm with ⟨hnone, _⟩ | ⟨_, hok⟩
    · exact hnone
    · rw [threw] at hok
      cases hok
  | freed event event' deleted pc done' eq =>
    rw [pc] at htaken
    obtain ⟨hf, m, hm⟩ := hc.held event pc
    rcases handle_eff hf hm with ⟨_, herr⟩ | ⟨htype, hok⟩
    · rw [done'] at herr
      cases herr
    rw [done'] at hok
    cases hok
    have hpc : ∀ e, next c.terminated ≠ .died e ∧ next c.terminated ≠ .handle e := by
      intro e
      cases c.terminated <;> exact ⟨nofun, nofun⟩
    rw [eq]
    refine ⟨⟨done ++ [event], ?_, ?_, fun e he => ?_⟩, fun e he => absurd he (hpc e).1, hc.queue,
      fun e he => absurd he (hpc e).2⟩
    · show c.taken = done ++ [event] ++ unfreed (next c.terminated)
      rw [unfreed_next, List.append_nil, htaken]
      rfl
    · show (c.freed ++ [m]).map some = _
      rw [List.map_append, List.map_append, hfreed]
      exact congrArg (_ ++ ·) (congrArg (fun o => [o]) hm.symm)
    · rcases List.mem_append.mp he with he | he
      · exact hknown e he
      · exact List.mem_singleton.mp he ▸ htype
  | interrupt eq =>
    rw [eq]
    exact ⟨hc.loop, hc.died, hc.queue, hc.held⟩
  | exit pc eq =>
    rw [pc] at htaken
    rw [eq]
    exact ⟨⟨done, htaken, hfreed, hknown⟩, nofun, hc.queue, nofun⟩

theorem run_inv_client {c : Client} {as : List (Around Act)} {queueSize : Nat} {h0 : 0 < queueSize}
    (hlive : ∀ event ∈ as.flatMap Around.received, Live event)
    (h : run queueCallback.around (init queueSize h0) as = some c) : Inv c := by
  have hall : ∀ a ∈ as, ∀ event ∈ a.received, Live event :=
    fun a ha event he => hlive event (List.mem_flatMap.mpr ⟨a, ha, he⟩)
  refine run_inv_along (C := fun _ a => ∀ event ∈ a.received, Live event)
    (fun d a d' ha hd hstep => ?_) (along_of_forall _ hall) (Inv.init queueSize h0) h
  cases a with
  | eventReceived event =>
    cases Option.some.inj hstep
    exact hd.eventReceived (ha event List.mem_cons_self)
  | other a => exact hd.step hstep

/-! ## at the end of the pipeline -/

/-- the worker passes an event to the application, and the queue is full -/
def FindsFull (s : State Client) : Pipeline.Act Act → Prop
  | .native .work => calling s.native ≠ none ∧ s.native.cf = .onEventReceived ∧ s.inst ≠ none ∧
      ¬ s.callback.callback.eventQueue.length < s.callback.callback.queueSize
  | _ => False

theorem eventReceived_refused (c : Client) (event : BAEvent) :
    (c.callback.eventQueue.length < c.callback.queueSize ∧
      (eventReceived c event).refused = c.refused) ∨
    (¬ c.callback.eventQueue.length < c.callback.queueSize ∧
      (eventReceived c event).refused = c.refused ++ [event]) := by
  obtain ⟨_, ⟨hroom, hin, _⟩ | ⟨hfull, hout, _⟩⟩ := offer_eff c.callback event
  · exact Or.inl ⟨hroom, by simp [eventReceived, hin]⟩
  · exact Or.inr ⟨hfull, by simp [eventReceived, hout]⟩

theorem step_refused {c c' : Client} {a : Act} (h : step c a = some c') :
    c'.refused = c.refused := by
  cases step_effect h with
  | getNextEvent _ _ _ _ _ eq => rw [eq]
  | died _ _ _ _ eq => rw [eq]
  | freed _ _ _ _ _ eq => rw [eq]
  | interrupt eq => rw [eq]
  | exit _ eq => rw [eq]

section
variable {viewsNull : Bool} {ptr : Nat → Addr}

/-- a step of the pipeline refuses the event that finds the queue full, and no other -/
theorem pipeline_refused {s s' : State Client} {a : Pipeline.Act Act}
    (h : Pipeline.step queueCallback viewsNull ptr s a = some s') :
    (¬ FindsFull s a ∧ s'.callback.refused = s.callback.refused) ∨
    (FindsFull s a ∧ ∃ event, s'.callback.refused = s.callback.refused ++ [event]) := by
  cases Pipeline.step_effect h with
  | pass ev native _ _ hcalling eq =>
    have hsome : calling s.native ≠ none := by
      unfold calling
      rw [hcalling]
      exact Option.some_ne_none ev
    unfold Pipeline.pass at eq
    split at eq
    · next hcf =>
      refine Or.inl ⟨fun hfull => ?_, by rw [eq]⟩
      rw [hfull.2.1] at hcf
      cases hcf
    · next hcf =>
      split at eq
      · next ex he =>
        refine Or.inl ⟨fun hfull => ?_, by rw [eq]⟩
        obtain ⟨w, hw⟩ := Option.ne_none_iff_exists'.mp hfull.2.2.1
        obtain ⟨event, he'⟩ := nativeOnEventReceived_ok viewsNull w (ptr s.passed.length) ev
        rw [hw, he'] at he
        cases he
      · next event he =>
        obtain ⟨w, hw⟩ := nativeOnEventReceived_some he
        rcases eventReceived_refused s.callback event with ⟨hroom, hr⟩ | ⟨hfull, hr⟩
        · refine Or.inl ⟨fun h => h.2.2.2 hroom, ?_⟩
          rw [eq]
          exact hr
        · refine Or.inr ⟨⟨hsome, hcf, by rw [hw]; exact Option.some_ne_none w, hfull⟩, event, ?_⟩
          rw [eq]
          exact hr
  | native b native hstep hcalls eq =>
    refine Or.inl ⟨fun hfull => ?_, by rw [eq]⟩
    cases b with
    | work =>
      obtain ⟨ev, hev⟩ := Option.ne_none_iff_exists'.mp hfull.1
      rcases nativeStep_calls hstep with ⟨ev', _, _, hc⟩ | ⟨hno, _⟩
      · rw [hc] at hcalls
        simpa using congrArg List.length hcalls
      · exact hno ev rfl (calling_some hev)
    | _ => exact hfull
  | getWrapper eq => exact Or.inl ⟨id, by rw [eq]⟩
  | callback b callback hstep eq => exact Or.inl ⟨id, by rw [eq]; exact step_refused hstep⟩

theorem refused_iff {cf : NativeCallback} {inst : Option EventManagement} {queueSize : Nat}
    {h0 : 0 < queueSize} {as : List (Pipeline.Act Act)} {s : State Client}
    (h : run (Pipeline.step queueCallback viewsNull ptr)
      (Pipeline.init cf inst (init queueSize h0)) as = some s) :
    s.callback.refused = [] ↔
      Along (Pipeline.step queueCallback viewsNull ptr) (fun t a => ¬ FindsFull t a)
        (Pipeline.init cf inst (init queueSize h0)) as := by
  refine run_iff_along (G := fun t => t.callback.refused = [])
    (B := fun t => t.callback.refused ≠ []) (fun _ hg hb => hb hg) ?_ ?_ ?_ rfl h
  · intro t a u ht hroom ha
    rcases pipeline_refused ha with ⟨_, hr⟩ | ⟨hfull, _⟩
    · rw [hr, ht]
    · exact absurd hfull hroom
  · intro t a u _ hfull ha
    rcases pipeline_refused ha with ⟨hroom, _⟩ | ⟨_, event, hr⟩
    · exact absurd hroom hfull
    · rw [hr]
      simp
  · intro t a u ht ha
    rcases pipeline_refused ha with ⟨_, hr⟩ | ⟨_, event, hr⟩
    · rw [hr]
      exact ht
    · rw [hr]
      simp

end

/-- **What the thread takes is part of what the daemon sent**, in order and intact.  Every message
that came through went into the queue or found it full, the queue never exceeds its size, and none
is lost exactly when none finds the queue full; then the thread has taken the first messages. -/
theorem taken_in_order (viewsNull : Bool) (ptr : Nat → Addr) (w : EventManagement)
    (queueSize : Nat) (h0 : 0 < queueSize) (as : List (Pipeline.Act Act)) (s : State Client)
    (h : run (Pipeline.step queueCallback viewsNull ptr)
      (Pipeline.init .onEventReceived (some w) (init queueSize h0)) as = some s)
    (hkeeps : ∀ a ∈ as, KeepsCallback a) (msgs : List Sent)
    (hsent : List.Forall₂ Delivers (as.flatMap Act.replies) msgs) :
    ∃ done rest, msgs = done ++ rest ∧ rest.length = (inFlight s.native).length ∧
      List.Forall₂ Tidings s.received done ∧
      Bounded.Merge (s.callback.taken ++ s.callback.callback.eventQueue) s.callback.refused
        s.received ∧
      s.callback.callback.eventQueue.length ≤ queueSize ∧
      (∃ got, got.Sublist msgs ∧ List.Forall₂ Tidings s.callback.taken got) ∧
      (s.callback.refused = [] ↔
        Along (Pipeline.step queueCallback viewsNull ptr) (fun t a => ¬ FindsFull t a)
          (Pipeline.init .onEventReceived (some w) (init queueSize h0)) as) ∧
      (s.callback.refused = [] → ∃ got, got <+: msgs ∧
        List.Forall₂ Tidings s.callback.taken got) := by
  obtain ⟨done, rest, hmsgs, hrest, hintact⟩ := passed_sent h hsent
  have hcarries := (run_ready hkeeps h).carries hintact
  obtain ⟨cs, hcs, hrecv, _⟩ := run_around h
  obtain ⟨_, bs, hbs, hoffered⟩ := refines_bounded hcs
  have hmerge : Bounded.Merge (s.callback.taken ++ s.callback.callback.eventQueue)
      s.callback.refused s.received := by
    rw [← hrecv, ← hoffered]
    exact Bounded.run_merge hbs
  have hdone : done <+: msgs := ⟨rest, hmsgs.symm⟩
  refine ⟨done, rest, hmsgs, hrest, hcarries, hmerge, Bounded.run_bound hbs, ?_, refused_iff h,
    fun hnone => ?_⟩
  · obtain ⟨got, hsub, hgot⟩ :=
      Matching.of_sublist hcarries ((List.sublist_append_left _ _).trans hmerge.sublist)
    exact ⟨got, hsub.trans hdone.sublist, hgot⟩
  · rw [hnone] at hmerge
    rw [← hmerge.eq_of_right_nil] at hcarries
    obtain ⟨got, hpre, hgot⟩ := Matching.of_prefix hcarries (List.prefix_append _ _)
    exact ⟨got, hpre.trans hdone, hgot⟩

/-- the second message finds a queue of one event full; then one round of the loop -/
def secondRefused : List (Pipeline.Act Act) :=
  (firstCall ++ secondCall).map .native ++ [.callback .getNextEvent, .callback .handle]

theorem taken_in_order_refused :
    ∃ s, run (Pipeline.step queueCallback true fun n => 64 * (n + 1))
        (Pipeline.init .onEventReceived (some .baWrapperNB) (init 1 Nat.one_pos)) secondRefused =
          some s ∧
      s.callback.taken.length = 1 ∧ s.callback.refused ≠ [] ∧
      ¬ Along (Pipeline.step queueCallback true fun n => 64 * (n + 1)) (fun t a => ¬ FindsFull t a)
        (Pipeline.init .onEventReceived (some .baWrapperNB) (init 1 Nat.one_pos))
        secondRefused ∧
      ∃ got, got.Sublist threeSent ∧ List.Forall₂ Tidings s.callback.taken got := by
  obtain ⟨s, hrun, htaken, hrefused⟩ : ∃ s,
      run (Pipeline.step queueCallback true fun n => 64 * (n + 1))
        (Pipeline.init .onEventReceived (some .baWrapperNB) (init 1 Nat.one_pos)) secondRefused =
          some s ∧ s.callback.taken.length = 1 ∧ s.callback.refused ≠ [] :=
    ⟨_, rfl, rfl, List.cons_ne_nil _ _⟩
  have hkeeps : ∀ a ∈ secondRefused, KeepsCallback a := by
    simp [secondRefused, firstCall, secondCall, hand, KeepsCallback]
  obtain ⟨_, _, _, _, _, _, _, hgot, hiff, _⟩ := taken_in_order true (fun n => 64 * (n + 1))
    .baWrapperNB 1 Nat.one_pos secondRefused s hrun hkeeps threeSent threeSent_delivered
  exact ⟨s, hrun, htaken, hrefused, fun hroom => hrefused (hiff.mpr hroom), hgot⟩

/-- **The loop frees every event it takes**, once for each and in order, up to the first one of an
unknown type, which ends the thread with the event unfreed.  Where `new` gives no address twice,
nothing is freed twice. -/
theorem loop_frees (viewsNull : Bool) (ptr : Nat → Addr) (cf : NativeCallback)
    (inst : Option EventManagement) (queueSize : Nat) (h0 : 0 < queueSize)
    (as : List (Pipeline.Act Act)) (s : State Client)
    (h : run (Pipeline.step queueCallback viewsNull ptr)
      (Pipeline.init cf inst (init queueSize h0)) as = some s) :
    ∃ done, s.callback.taken = done ++ unfreed s.callback.pc ∧
      s.callback.freed.map some = done.map BAEvent.mapping ∧
      (Function.Injective ptr → s.callback.freed.Nodup) ∧
      (∀ event ∈ done, event.type ≠ none) ∧
      (∀ event, s.callback.pc = .died event → event.type = none) := by
  have hpointed := run_pointed h
  obtain ⟨cs, hcs, hrecv, _⟩ := run_around h
  obtain ⟨_, bs, hbs, hoffered⟩ := refines_bounded hcs
  have hinv := run_inv_client (fun event he => by
    obtain ⟨eventPtr, hfresh⟩ := hpointed.fresh (hrecv ▸ he)
    exact Live.of_fresh hfresh) hcs
  obtain ⟨done, htaken, hfreed, hknown⟩ := hinv.loop
  have hsub : done.Sublist s.received := by
    have hmerge := (Bounded.run_merge hbs).sublist
    rw [hoffered, hrecv] at hmerge
    refine List.Sublist.trans ?_ ((List.sublist_append_left _ _).trans hmerge)
    show done.Sublist s.callback.taken
    rw [htaken]
    exact List.sublist_append_left _ _
  refine ⟨done, htaken, hfreed, fun hptr => ?_, hknown, hinv.died⟩
  have hnodup := hpointed.nodup hptr hsub
  rw [← hfreed] at hnodup
  exact List.Nodup.of_map some hnodup

/-- two events in the queue, two rounds of the loop, and the end of the thread -/
def twoRounds : List (Pipeline.Act Act) :=
  (firstCall ++ secondCall).map .native ++ [.callback .getNextEvent, .callback .handle,
    .callback .getNextEvent, .callback .interrupt, .callback .handle]

theorem loop_frees_two :
    ∃ s, run (Pipeline.step queueCallback true fun n => 64 * (n + 1))
        (Pipeline.init .onEventReceived (some .baWrapperNB) (init 2 Nat.two_pos)) twoRounds =
          some s ∧
      s.callback.freed.length = 2 ∧ s.callback.freed.Nodup := by
  obtain ⟨s, hrun, hfreed⟩ : ∃ s, run (Pipeline.step queueCallback true fun n => 64 * (n + 1))
      (Pipeline.init .onEventReceived (some .baWrapperNB) (init 2 Nat.two_pos)) twoRounds =
        some s ∧ s.callback.freed.length = 2 := ⟨_, rfl, rfl⟩
  have hptr : Function.Injective fun n => 64 * (n + 1) := fun m n h => by
    have h : 64 * (m + 1) = 64 * (n + 1) := h
    omega
  obtain ⟨_, _, _, hnodup, _⟩ := loop_frees true (fun n => 64 * (n + 1)) .onEventReceived
    (some .baWrapperNB) 2 Nat.two_pos twoRounds s hrun
  exact ⟨s, hrun, hfreed, hnodup hptr⟩

end EventQueue
end Wrapper
end BA
