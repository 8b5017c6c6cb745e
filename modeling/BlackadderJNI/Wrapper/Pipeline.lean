import BlackadderJNI.Lib.Matching
import BlackadderJNI.Native.WorkerLoop
import BlackadderJNI.Wrapper.Release

/-!
# From the socket to the callback of the application

The selector and the worker of `Native/WorkerLoop.lean`, with what the worker calls: the native
`defaultCallback`, or the native `onEventReceived`, which builds a `BAEvent` and enters the
callback object of the application.

* `BAWrapperNBCallback`   a callback object, and all that goes on around it;
* `State`, `step`         one statement of the two threads, `getWrapper`, or a step around the
                          callback;
* `Sent`                  what the daemon sends, with the layout as a field;
* `passed_created`        what the worker has passed on are the events the selector made;
* `received_in_order`     so the application sees what was sent, once, in order and intact;
* `run_around`            the callback object runs on its own, on the events received.
-/

namespace BA
namespace Wrapper
namespace Pipeline
open Run

/-- the worker enters `eventReceived`, and goes on when it has `returned`; `step` is everything
else that happens around the object -/
structure BAWrapperNBCallback (S A : Type) where
  eventReceived : S → BAEvent → S
  returned : S → Bool
  step : S → A → Option S

/-- the two functions that `cf` points to -/
inductive NativeCallback where
  | defaultCallback
  | onEventReceived
  deriving DecidableEq, Repr

/-- what became of an event that the worker passed on -/
inductive Passed where
  /-- by `defaultCallback` -/
  | deleted (ev : Event)
  /-- `onEventReceived` threw, and the exception is pending in the worker -/
  | threw (ev : Event)
  | received (event : BAEvent)

def Passed.isThrew : Passed → Bool
  | .threw _ => true
  | _ => false

structure State (S : Type) where
  native : WorkerLoop.State NativeCallback
  /-- the static field `instance`, null until `getWrapper` has returned -/
  inst : Option EventManagement
  callback : S
  passed : List Passed

variable {S A : Type}

def init (cf : NativeCallback) (inst : Option EventManagement) (callback : S) : State S where
  native := WorkerLoop.init cf
  inst := inst
  callback := callback
  passed := []

inductive Act (A : Type) where
  | native (a : WorkerLoop.Act NativeCallback)
  | getWrapper
  | callback (a : A)

section
variable (cb : BAWrapperNBCallback S A) (viewsNull : Bool)
  /- the pointers of the events, in the order the selector makes them -/
  (ptr : Nat → Addr)

/-- the worker is outside `eventReceived`, with no exception pending -/
def Free (s : State S) : Prop :=
  cb.returned s.callback = true ∧ s.passed.all (fun p => !p.isThrew) = true

instance (s : State S) : Decidable (Free cb s) := inferInstanceAs (Decidable (_ ∧ _))

/-- `cf(ev)` -/
def pass (s : State S) (native : WorkerLoop.State NativeCallback) (ev : Event) : State S :=
  match s.native.cf with
  | .defaultCallback => { s with native := native, passed := s.passed ++ [.deleted ev] }
  | .onEventReceived =>
    match BAWrapperNB.nativeOnEventReceived viewsNull s.inst (ptr s.passed.length) ev with
    | .error _ => { s with native := native, passed := s.passed ++ [.threw ev] }
    | .ok event =>
      { s with
        native := native
        callback := cb.eventReceived s.callback event
        passed := s.passed ++ [.received event] }

/-- the event that the worker is about to pass on -/
def calling (s : WorkerLoop.State NativeCallback) : Option Event :=
  match s.worker with
  | .call ev => some ev
  | _ => none

def work (s : State S) : Option (State S) :=
  if Free cb s then
    (WorkerLoop.work s.native).map fun native =>
      match calling s.native with
      | some ev => pass cb viewsNull ptr s native ev
      | none => { s with native := native }
  else none

def step (s : State S) : Act A → Option (State S)
  | .native .work => work cb viewsNull ptr s
  | .native a => (WorkerLoop.step s.native a).map fun native => { s with native := native }
  | .getWrapper => some { s with inst := some .baWrapperNB }
  | .callback a => (cb.step s.callback a).map fun callback => { s with callback := callback }

end

/-! ## what a step can do -/

/-- the native event behind an entry -/
inductive Tells (viewsNull : Bool) : Passed → Event → Prop
  | deleted (ev : Event) : Tells viewsNull (.deleted ev) ev
  | threw (ev : Event) : Tells viewsNull (.threw ev) ev
  | received {event : BAEvent} {ev : Event} (eventPtr : Addr) (w : EventManagement)
      (h : BAWrapperNB.nativeOnEventReceived viewsNull (some w) eventPtr ev = .ok event) :
      Tells viewsNull (.received event) ev

/-- the statements of the two native threads behind a step -/
def Act.onNative : Act A → List (WorkerLoop.Act NativeCallback)
  | .native a => [a]
  | _ => []

/-- a step of the native threads, which may pass an event on, or one that leaves them alone -/
inductive Effect (cb : BAWrapperNBCallback S A) (viewsNull : Bool) (ptr : Nat → Addr)
    (s s' : State S) : Act A → Prop
  | pass (ev : Event) (native : WorkerLoop.State NativeCallback) (free : Free cb s)
      (work : WorkerLoop.step s.native .work = some native) (calling : s.native.worker = .call ev)
      (eq : s' = pass cb viewsNull ptr s native ev) : Effect cb viewsNull ptr s s' (.native .work)
  | native (a : WorkerLoop.Act NativeCallback) (native : WorkerLoop.State NativeCallback)
      (step : WorkerLoop.step s.native a = some native) (calls : native.calls = s.native.calls)
      (eq : s' = { s with native := native }) : Effect cb viewsNull ptr s s' (.native a)
  | getWrapper (eq : s' = { s with inst := some .baWrapperNB }) :
      Effect cb viewsNull ptr s s' .getWrapper
  | callback (a : A) (callback : S) (step : cb.step s.callback a = some callback)
      (eq : s' = { s with callback := callback }) : Effect cb viewsNull ptr s s' (.callback a)

theorem calling_none {s : WorkerLoop.State NativeCallback} (h : calling s = none) (ev : Event) :
    s.worker ≠ .call ev := by
  intro hw
  unfold calling at h
  rw [hw] at h
  cases h

theorem calling_some {s : WorkerLoop.State NativeCallback} {ev : Event} (h : calling s = some ev) :
    s.worker = .call ev := by
  unfold calling at h
  split at h
  · next hw =>
    cases h
    exact hw
  · cases h

/-- only the call itself adds to the calls -/
theorem nativeStep_calls {s t : WorkerLoop.State NativeCallback}
    {a : WorkerLoop.Act NativeCallback} (h : WorkerLoop.step s a = some t) :
    (∃ ev, a = .work ∧ s.worker = .call ev ∧ t.calls = s.calls ++ [(s.cf, ev)]) ∨
    ((∀ ev, a = .work → s.worker ≠ .call ev) ∧ t.calls = s.calls) := by
  cases a with
  | work =>
    dsimp only [WorkerLoop.step, WorkerLoop.work] at h
    cases hw : s.worker with
    | call ev =>
      rw [hw] at h
      cases h
      exact Or.inl ⟨ev, rfl, rfl, rfl⟩
    | _ =>
      refine Or.inr ⟨fun ev _ => nofun, ?_⟩
      rw [hw] at h
      dsimp only at h
      repeat' split at h
      all_goals cases h <;> rfl
  | setCallback function =>
    cases h
    exact Or.inr ⟨nofun, rfl⟩
  | _ =>
    refine Or.inr ⟨nofun, ?_⟩
    dsimp only [WorkerLoop.step, WorkerLoop.read, WorkerLoop.selectorLock, WorkerLoop.push,
      WorkerLoop.signal, WorkerLoop.selectorUnlock, WorkerLoop.spurious] at h
    repeat' split at h
    all_goals cases h <;> rfl

section
variable {cb : BAWrapperNBCallback S A} {viewsNull : Bool} {ptr : Nat → Addr}

theorem step_effect {s s' : State S} {a : Act A} (h : step cb viewsNull ptr s a = some s') :
    Effect cb viewsNull ptr s s' a := by
  have native : ∀ b, b ≠ .work → ((WorkerLoop.step s.native b).map fun native =>
      { s with native := native }) = some s' → Effect cb viewsNull ptr s s' (.native b) := by
    intro b hb hmap
    obtain ⟨native, hn, e⟩ := Option.map_eq_some_iff.mp hmap
    rcases nativeStep_calls hn with ⟨ev, hwork, _⟩ | ⟨_, hcalls⟩
    · exact absurd hwork hb
    · exact .native b native hn hcalls e.symm
  cases a with
  | native b =>
    cases b with
    | work =>
      dsimp only [step, work] at h
      obtain ⟨hfree, h⟩ := Option.ite_none_right_eq_some.mp h
      obtain ⟨native, hn, e⟩ := Option.map_eq_some_iff.mp h
      cases hc : calling s.native with
      | some ev =>
        rw [hc] at e
        exact .pass ev native hfree hn (calling_some hc) e.symm
      | none =>
        rw [hc] at e
        rcases nativeStep_calls (a := .work) hn with ⟨ev, _, hw, _⟩ | ⟨_, hcalls⟩
        · exact absurd hw (calling_none hc ev)
        · exact .native .work native hn hcalls e.symm
    | _ => exact native _ nofun h
  | getWrapper => exact .getWrapper (Option.some.inj h).symm
  | callback b =>
    obtain ⟨callback, hc, e⟩ := Option.map_eq_some_iff.mp h
    exact .callback b callback hc e.symm

theorem nativeOnEventReceived_some {inst : Option EventManagement} {eventPtr : Addr} {ev : Event}
    {event : BAEvent}
    (h : BAWrapperNB.nativeOnEventReceived viewsNull inst eventPtr ev = .ok event) :
    ∃ w, inst = some w := by
  cases inst with
  | some w => exact ⟨w, rfl⟩
  | none =>
    dsimp only [BAWrapperNB.nativeOnEventReceived, BAWrapperNB.onEventReceived,
      BAEvent.setNativeMemoryMappings] at h
    split at h <;> cases h

variable (cb viewsNull ptr) in
/-- what passing an event on adds, and what it leaves -/
theorem pass_eff (s : State S) (native : WorkerLoop.State NativeCallback) (ev : Event) :
    (pass cb viewsNull ptr s native ev).native = native ∧
    (pass cb viewsNull ptr s native ev).inst = s.inst ∧
    ∃ p, (pass cb viewsNull ptr s native ev).passed = s.passed ++ [p] ∧ Tells viewsNull p ev := by
  unfold pass
  cases s.native.cf with
  | defaultCallback => exact ⟨rfl, rfl, _, rfl, .deleted ev⟩
  | onEventReceived =>
    dsimp only
    split
    · exact ⟨rfl, rfl, _, rfl, .threw ev⟩
    · next event he =>
      obtain ⟨w, hw⟩ := nativeOnEventReceived_some he
      exact ⟨rfl, rfl, _, rfl, .received _ w (hw ▸ he)⟩

/-! ## whole runs -/

theorem native_step {s s' : State S} {a : Act A} (h : step cb viewsNull ptr s a = some s') :
    run WorkerLoop.step s.native a.onNative = some s'.native := by
  cases step_effect h with
  | pass ev native _ work _ eq =>
    rw [eq, (pass_eff cb viewsNull ptr s native ev).1]
    exact run_snoc _ (run_nil _ _) work
  | native a native step _ eq =>
    rw [eq]
    exact run_snoc _ (run_nil _ _) step
  | getWrapper eq => rw [eq]; rfl
  | callback a callback _ eq => rw [eq]; rfl

theorem run_native {cf : NativeCallback} {inst : Option EventManagement} {callback : S}
    {as : List (Act A)} {s : State S}
    (h : run (step cb viewsNull ptr) (init cf inst callback) as = some s) :
    run WorkerLoop.step (WorkerLoop.init cf) (as.flatMap Act.onNative) = some s.native :=
  run_proj State.native Act.onNative (fun _ _ _ ha => native_step ha) h

/-- the events between the selector's hand and the call of the worker, the oldest first -/
def inFlight {C : Type} (s : WorkerLoop.State C) : List Event :=
  WorkerLoop.held s.worker ++ s.eventQueue ++ WorkerLoop.inHand s.selector

theorem native_content {C : Type} {cf : C} {as : List (WorkerLoop.Act C)}
    {s : WorkerLoop.State C} (h : run WorkerLoop.step (WorkerLoop.init cf) as = some s) :
    as.flatMap WorkerLoop.Act.created = s.calls.map Prod.snd ++ inFlight s := by
  obtain ⟨bs, u, hbs, hsim, hsent⟩ := WorkerLoop.refines_eventPath h
  obtain ⟨cs, hcs, hput⟩ := EventPath.refines_channel hbs
  have horder : u.calls.map Prod.snd ++ EventPath.held u.worker ++ u.eventQueue =
      bs.flatMap EventPath.Act.received := by
    rw [← hput]
    exact Channel.run_order hcs
  rw [← hsent, ← horder, hsim.calls, hsim.queue, hsim.place.held_eq]
  simp [inFlight]

def Act.created (a : Act A) : List Event := a.onNative.flatMap WorkerLoop.Act.created

theorem flatMap_created (as : List (Act A)) :
    (as.flatMap Act.onNative).flatMap WorkerLoop.Act.created = as.flatMap Act.created :=
  List.flatMap_assoc

theorem tells_step {s s' : State S} {a : Act A}
    (hs : List.Forall₂ (Tells viewsNull) s.passed (s.native.calls.map Prod.snd))
    (h : step cb viewsNull ptr s a = some s') :
    List.Forall₂ (Tells viewsNull) s'.passed (s'.native.calls.map Prod.snd) := by
  cases step_effect h with
  | pass ev native _ work calling eq =>
    obtain ⟨hn, _, p, hp, ht⟩ := pass_eff cb viewsNull ptr s native ev
    rcases nativeStep_calls work with ⟨ev', _, hw, hcalls⟩ | ⟨hno, _⟩
    · rw [calling] at hw
      cases hw
      rw [eq, hn, hp, hcalls, List.map_append]
      exact Matching.snoc hs ht
    · exact absurd calling (hno ev rfl)
  | native a native _ calls eq =>
    rw [eq]
    show List.Forall₂ _ s.passed (native.calls.map Prod.snd)
    rw [calls]
    exact hs
  | getWrapper eq =>
    rw [eq]
    exact hs
  | callback a callback _ eq =>
    rw [eq]
    exact hs

/-- **The worker passes on what the selector made**, once and in order. -/
theorem passed_created {cf : NativeCallback} {inst : Option EventManagement} {callback : S}
    {as : List (Act A)} {s : State S}
    (h : run (step cb viewsNull ptr) (init cf inst callback) as = some s) :
    ∃ evs, as.flatMap Act.created = evs ++ inFlight s.native ∧
      List.Forall₂ (Tells viewsNull) s.passed evs := by
  refine ⟨s.native.calls.map Prod.snd, ?_, ?_⟩
  · rw [← flatMap_created]
    exact native_content (run_native h)
  · exact run_inv (I := fun t => List.Forall₂ (Tells viewsNull) t.passed
      (t.native.calls.map Prod.snd)) (fun _ _ _ hi ha => tells_step hi ha) .nil h

/-! ## once everything is set up -/

/-- `setCallback` is called with `onEventReceived` only -/
def KeepsCallback : Act A → Prop
  | .native (.setCallback function) => function = .onEventReceived
  | _ => True

def Passed.event : Passed → Option BAEvent
  | .received event => some event
  | _ => none

/-- the events that `eventReceived` was called with -/
def State.received (s : State S) : List BAEvent := s.passed.filterMap Passed.event

/-- the native side calls `onEventReceived`, and `getWrapper` has returned -/
structure Ready (s : State S) : Prop where
  cf : s.native.cf = .onEventReceived
  inst : ∃ w, s.inst = some w
  passed : s.passed = s.received.map .received

theorem nativeStep_cf {s t : WorkerLoop.State NativeCallback}
    {a : WorkerLoop.Act NativeCallback} (hs : s.cf = .onEventReceived)
    (ha : KeepsCallback (.native a : Act A)) (h : WorkerLoop.step s a = some t) :
    t.cf = .onEventReceived := by
  cases a with
  | setCallback function =>
    cases h
    exact ha
  | work =>
    dsimp only [WorkerLoop.step, WorkerLoop.work] at h
    cases hw : s.worker with
    | _ =>
      rw [hw] at h
      dsimp only at h
      repeat' split at h
      all_goals cases h <;> exact hs
  | _ =>
    dsimp only [WorkerLoop.step, WorkerLoop.read, WorkerLoop.selectorLock, WorkerLoop.push,
      WorkerLoop.signal, WorkerLoop.selectorUnlock, WorkerLoop.spurious] at h
    repeat' split at h
    all_goals cases h <;> exact hs

variable (viewsNull) in
theorem nativeOnEventReceived_ok (w : EventManagement) (eventPtr : Addr) (ev : Event) :
    ∃ event, BAWrapperNB.nativeOnEventReceived viewsNull (some w) eventPtr ev = .ok event := by
  unfold BAWrapperNB.nativeOnEventReceived
  cases dataBuffer viewsNull ev with
  | none => exact ⟨_, rfl⟩
  | some b => exact ⟨_, rfl⟩

variable (cb viewsNull ptr) in
/-- what passing an event on does when everything is set up -/
theorem Ready.pass {s : State S} (hs : Ready s) (native : WorkerLoop.State NativeCallback)
    (ev : Event) : ∃ event, pass cb viewsNull ptr s native ev = { s with
      native := native
      callback := cb.eventReceived s.callback event
      passed := s.passed ++ [.received event] } := by
  obtain ⟨w, hw⟩ := hs.inst
  obtain ⟨event, he⟩ := nativeOnEventReceived_ok viewsNull w (ptr s.passed.length) ev
  refine ⟨event, ?_⟩
  unfold Pipeline.pass
  rw [hs.cf, hw]
  dsimp only
  rw [he]

theorem received_snoc (s : State S) (native : WorkerLoop.State NativeCallback) (callback : S)
    (event : BAEvent) :
    (⟨native, s.inst, callback, s.passed ++ [.received event]⟩ : State S).received =
      s.received ++ [event] := by
  unfold State.received
  rw [List.filterMap_append]
  rfl

theorem Ready.step {s s' : State S} {a : Act A} (hs : Ready s) (ha : KeepsCallback a)
    (h : step cb viewsNull ptr s a = some s') : Ready s' := by
  cases step_effect h with
  | pass ev native _ work calling eq =>
    obtain ⟨event, he⟩ := hs.pass cb viewsNull ptr native ev
    rw [eq, he]
    have hwork : KeepsCallback (.native .work : Act A) := trivial
    refine ⟨nativeStep_cf hs.cf hwork work, hs.inst, ?_⟩
    rw [received_snoc, List.map_append, ← hs.passed]
    rfl
  | native a native step _ eq =>
    rw [eq]
    exact ⟨nativeStep_cf hs.cf ha step, hs.inst, hs.passed⟩
  | getWrapper eq =>
    rw [eq]
    exact ⟨hs.cf, ⟨_, rfl⟩, hs.passed⟩
  | callback a callback _ eq =>
    rw [eq]
    exact ⟨hs.cf, hs.inst, hs.passed⟩

theorem run_ready {w : EventManagement} {callback : S} {as : List (Act A)} {s : State S}
    (hkeeps : ∀ a ∈ as, KeepsCallback a)
    (h : run (step cb viewsNull ptr) (init .onEventReceived (some w) callback) as = some s) :
    Ready s :=
  run_inv_along (fun _ _ _ ha hs h => hs.step ha h) (along_of_forall _ hkeeps)
    ⟨rfl, ⟨w, rfl⟩, rfl⟩ h

/-! ## from what was sent to what is received -/

/-- what the daemon sends for an event -/
structure Sent where
  header : Bytes
  header_length : header.length = sizeofNlmsghdr
  type : BAEventType
  count : UInt8
  id : Bytes
  id_length : id.length = count.toNat * pursuitIdLen
  payload : Bytes

def Sent.bytes (m : Sent) : Bytes := datagram m.header m.type.code m.count m.id m.payload

/-- the socket hands out the whole datagram -/
def Delivers (r : Reply) (m : Sent) : Prop := r.recv = some m.bytes

def Act.replies : Act A → List Reply
  | .native (.read r) => [r]
  | _ => []

theorem created_replies (as : List (Act A)) :
    as.flatMap Act.created =
      (as.flatMap Act.replies).flatMap fun r => (NBBlackadder.selectorEvent r).toList := by
  rw [List.flatMap_assoc]
  congr 1
  funext a
  cases a with
  | native a =>
    cases a with
    | read r => simp [Act.created, Act.onNative, WorkerLoop.Act.created, Act.replies]
    | _ => rfl
  | _ => rfl

/-- the event that the selector makes of a message -/
def Made (ev : Event) (m : Sent) : Prop :=
  ∃ r, Delivers r m ∧ ev = Event.decode r.memory m.bytes.length

/-- the event of a message, whatever became of it; one that was received tells what the message
says -/
structure Intact (viewsNull : Bool) (p : Passed) (m : Sent) : Prop where
  made : ∃ ev, Tells viewsNull p ev ∧ Made ev m
  told : ∀ event, p = .received event → Carries event m.type m.id m.payload

theorem made_of_delivers {rs : List Reply} {msgs : List Sent} (h : List.Forall₂ Delivers rs msgs) :
    List.Forall₂ Made (rs.flatMap fun r => (NBBlackadder.selectorEvent r).toList) msgs := by
  induction h with
  | nil => exact .nil
  | @cons r m rs msgs hr _ ih =>
    have hpos : 0 < m.bytes.length := by simp [Sent.bytes, datagram]
    rw [List.flatMap_cons, (events_of_received Event.new hr hpos).2]
    exact .cons ⟨r, hr, rfl⟩ ih

theorem intact_of_made {p : Passed} {ev : Event} {m : Sent} (h : Tells viewsNull p ev)
    (hm : Made ev m) : Intact viewsNull p m := by
  refine ⟨⟨ev, h, hm⟩, fun event hp => ?_⟩
  obtain ⟨r, hr, hev⟩ := hm
  cases h with
  | deleted ev => cases hp
  | threw ev => cases hp
  | received eventPtr w h =>
    cases hp
    obtain ⟨e, he, hc⟩ := carries_decoded viewsNull w eventPtr m.header_length m.id_length hr hev
    rw [show e = event from Except.ok.inj (he.symm.trans h)] at hc
    exact hc

/-- every message read so far was passed on, or is on its way to the worker -/
theorem passed_sent {cf : NativeCallback} {inst : Option EventManagement} {callback : S}
    {as : List (Act A)} {s : State S}
    (h : run (step cb viewsNull ptr) (init cf inst callback) as = some s) {msgs : List Sent}
    (hsent : List.Forall₂ Delivers (as.flatMap Act.replies) msgs) :
    ∃ done rest, msgs = done ++ rest ∧ rest.length = (inFlight s.native).length ∧
      List.Forall₂ (Intact viewsNull) s.passed done := by
  obtain ⟨evs, hcreated, htells⟩ := passed_created h
  have hmade := made_of_delivers hsent
  rw [← created_replies, hcreated] at hmade
  obtain ⟨done, rest, hmsgs, hdone, hrest⟩ := Matching.split hmade
  refine ⟨done, rest, hmsgs, hrest.length_eq.symm, ?_⟩
  refine Matching.comp (fun p ev m => ?_) htells hdone
  exact intact_of_made

/-- the event tells what the message says -/
def Tidings (event : BAEvent) (m : Sent) : Prop := Carries event m.type m.id m.payload

theorem Ready.carries {s : State S} (hs : Ready s) {done : List Sent}
    (h : List.Forall₂ (Intact viewsNull) s.passed done) :
    List.Forall₂ Tidings s.received done := by
  rw [hs.passed, List.forall₂_map_left_iff] at h
  exact h.imp fun event m hi => hi.told event rfl

end

/-- **What the daemon sends, the application receives**: once, in order and intact, whatever the
callback object does and however the threads interleave.  Every message read so far was passed on
by the worker or is on its way to it; and when `onEventReceived` and the wrapper were in place
before the first message, every message passed on went to the application. -/
theorem received_in_order (cb : BAWrapperNBCallback S A) (viewsNull : Bool) (ptr : Nat → Addr)
    (cf : NativeCallback) (inst : Option EventManagement) (callback : S) (as : List (Act A))
    (s : State S) (h : run (step cb viewsNull ptr) (init cf inst callback) as = some s)
    (msgs : List Sent) (hsent : List.Forall₂ Delivers (as.flatMap Act.replies) msgs) :
    ∃ done rest, msgs = done ++ rest ∧ rest.length = (inFlight s.native).length ∧
      List.Forall₂ (Intact viewsNull) s.passed done ∧
      (cf = .onEventReceived → inst ≠ none → (∀ a ∈ as, KeepsCallback a) →
        List.Forall₂ Tidings s.received done) := by
  obtain ⟨done, rest, hmsgs, hrest, hintact⟩ := passed_sent h hsent
  refine ⟨done, rest, hmsgs, hrest, hintact, fun hcf hinst hkeeps => ?_⟩
  obtain ⟨w, rfl⟩ := Option.ne_none_iff_exists'.mp hinst
  subst hcf
  exact (run_ready hkeeps h).carries hintact

/-! ## the callback that is there by default -/

/-- `DiscardCallback`; the state is what it has passed to `deleteEvent` -/
def discardCallback : BAWrapperNBCallback (List Mapping) Empty where
  eventReceived deleted event :=
    deleted ++ (DiscardCallback.eventReceived event : Receipt Empty Empty).released.toList
  returned _ := true
  step _ a := nomatch a

/-- the stop of publishing that `stopDatagram` holds -/
def stopSent : Sent :=
  ⟨List.replicate 16 0, rfl, .stopPublish, 1, [1, 2, 3, 4, 5, 6, 7, 8], rfl, []⟩

theorem zeroHeader_length : (List.replicate 16 0 : Bytes).length = sizeofNlmsghdr := rfl

/-- the published data that `newData` holds -/
def newDataSent : Sent :=
  ⟨List.replicate 16 0, zeroHeader_length, .publishedData, 2, newDataId, rfl, [7, 0, 9]⟩

/-- the selector reads a message and hands its event to the worker -/
def hand (r : Reply) : List (WorkerLoop.Act NativeCallback) :=
  [.read r, .selectorLock, .push, .signal, .selectorUnlock]

/-- two messages come in, and the worker calls the callback for the first one -/
def firstCall : List (WorkerLoop.Act NativeCallback) :=
  [.work, .work] ++ hand (Reply.whole stopDatagram stopDatagram_length) ++
    [.work, .work, .work, .work, .work] ++ hand (Reply.whole newData newData_length) ++ [.work]

/-- the worker goes on with the second one; a third one comes in -/
def secondCall : List (WorkerLoop.Act NativeCallback) :=
  [.work, .work, .work, .work, .work, .work] ++
    hand (Reply.whole stopDatagram stopDatagram_length)

def threeSent : List Sent := [stopSent, newDataSent, stopSent]

theorem threeSent_delivered : List.Forall₂ Delivers
    [Reply.whole stopDatagram stopDatagram_length, Reply.whole newData newData_length,
      Reply.whole stopDatagram stopDatagram_length] threeSent :=
  .cons rfl (.cons rfl (.cons rfl .nil))

theorem received_in_order_two :
    ∃ s, run (step discardCallback true fun n => 64 * (n + 1))
        (init .onEventReceived (some .baWrapperNB) [])
        ((firstCall ++ secondCall).map .native) = some s ∧
      (inFlight s.native).length = 1 ∧
      List.Forall₂ Tidings s.received [stopSent, newDataSent] := by
  obtain ⟨s, hrun, hflight⟩ : ∃ s, run (step discardCallback true fun n => 64 * (n + 1))
      (init .onEventReceived (some .baWrapperNB) [])
      ((firstCall ++ secondCall).map .native) = some s ∧ (inFlight s.native).length = 1 :=
    ⟨_, rfl, rfl⟩
  have hkeeps : ∀ a ∈ (firstCall ++ secondCall).map (.native : _ → Act Empty),
      KeepsCallback a := by
    simp [firstCall, secondCall, hand, KeepsCallback]
  obtain ⟨done, rest, hmsgs, hrest, _, hall⟩ := received_in_order discardCallback true
    (fun n => 64 * (n + 1)) .onEventReceived (some .baWrapperNB) [] _ s hrun threeSent
    threeSent_delivered
  rw [hflight] at hrest
  obtain ⟨m, rfl⟩ := List.length_eq_one_iff.mp hrest
  obtain ⟨hdone, _⟩ := List.append_inj' (show [stopSent, newDataSent] ++ [stopSent] = done ++ [m]
    from hmsgs) rfl
  exact ⟨s, hrun, hflight, hdone ▸ hall rfl nofun hkeeps⟩

/-! ## the callback object on its own -/

/-- a call of `eventReceived`, or a step around the object -/
inductive Around (A : Type) where
  | eventReceived (event : BAEvent)
  | other (a : A)

def Around.received : Around A → List BAEvent
  | .eventReceived event => [event]
  | .other _ => []

def Around.others : Around A → List A
  | .eventReceived _ => []
  | .other a => [a]

def BAWrapperNBCallback.around (cb : BAWrapperNBCallback S A) (c : S) : Around A → Option S
  | .eventReceived event =>
    if cb.returned c = true then some (cb.eventReceived c event) else none
  | .other a => cb.step c a

def Act.others : Act A → List A
  | .callback a => [a]
  | _ => []

/-- what a step is to the callback object -/
theorem around_step {cb : BAWrapperNBCallback S A} {viewsNull : Bool} {ptr : Nat → Addr}
    {s s' : State S} {a : Act A} (h : step cb viewsNull ptr s a = some s') :
    ∃ bs, run cb.around s.callback bs = some s'.callback ∧
      s'.received = s.received ++ bs.flatMap Around.received ∧
      bs.flatMap Around.others = a.others := by
  have still : ∀ t : State S, s' = t → t.callback = s.callback → t.received = s.received →
      a.others = [] → ∃ bs, run cb.around s.callback bs = some s'.callback ∧
        s'.received = s.received ++ bs.flatMap Around.received ∧
        bs.flatMap Around.others = a.others := by
    rintro t rfl hc hr ha
    exact ⟨[], congrArg some hc.symm, by simp [hr], ha.symm⟩
  cases step_effect h with
  | pass ev native free _ _ eq =>
    unfold pass at eq
    split at eq
    · refine still _ eq rfl ?_ rfl
      simp [State.received, Passed.event]
    · split at eq
      · refine still _ eq rfl ?_ rfl
        simp [State.received, Passed.event]
      · next event _ =>
        refine ⟨[.eventReceived event], ?_, ?_, rfl⟩
        · rw [run_cons, BAWrapperNBCallback.around, if_pos free.1, eq]
          rfl
        · rw [eq]
          exact received_snoc s native _ event
  | native b native _ _ eq => exact still _ eq rfl rfl rfl
  | getWrapper eq => exact still _ eq rfl rfl rfl
  | callback b callback step eq =>
    refine ⟨[.other b], ?_, ?_, rfl⟩
    · rw [run_cons, eq]
      show (cb.step s.callback b).bind _ = _
      rw [step]
      rfl
    · rw [eq]
      exact (List.append_nil _).symm

/-- **The callback object sees a run of its own**, on the events received and the steps around
it. -/
theorem run_around {cb : BAWrapperNBCallback S A} {viewsNull : Bool} {ptr : Nat → Addr}
    {cf : NativeCallback} {inst : Option EventManagement} {callback : S} {as : List (Act A)}
    {s : State S} (h : run (step cb viewsNull ptr) (init cf inst callback) as = some s) :
    ∃ bs, run cb.around callback bs = some s.callback ∧
      bs.flatMap Around.received = s.received ∧
      bs.flatMap Around.others = as.flatMap Act.others := by
  refine run_hist (I := fun t done => ∃ bs, run cb.around callback bs = some t.callback ∧
      bs.flatMap Around.received = t.received ∧
      bs.flatMap Around.others = done.flatMap Act.others)
    ⟨[], rfl, rfl, rfl⟩ (fun t done a u ht ha => ?_) h
  obtain ⟨bs, hbs, hrecv, hothers⟩ := ht
  obtain ⟨cs, hcs, hrecv', hothers'⟩ := around_step ha
  refine ⟨bs ++ cs, run_trans _ hbs hcs, ?_, ?_⟩
  · rw [List.flatMap_append, hrecv, hrecv']
  · rw [List.flatMap_append, List.flatMap_append, hothers, hothers']
    simp

/-! ## the pointers of the events received -/

/-- the event received at some place has the pointer made for that place, and nobody has freed it -/
def Pointed (ptr : Nat → Addr) (s : State S) : Prop :=
  ∃ places : List Nat, (∀ i ∈ places, i < s.passed.length) ∧ places.Nodup ∧
    List.Forall₂ (fun event i => Fresh event (ptr i)) s.received places

theorem Pointed.skip {ptr : Nat → Addr} {s s' : State S} (h : Pointed ptr s)
    (hlen : s.passed.length ≤ s'.passed.length) (hr : s'.received = s.received) :
    Pointed ptr s' := by
  obtain ⟨places, hlt, hnodup, hfresh⟩ := h
  exact ⟨places, fun i hi => (hlt i hi).trans_le hlen, hnodup, hr ▸ hfresh⟩

theorem pointed_step {cb : BAWrapperNBCallback S A} {viewsNull : Bool} {ptr : Nat → Addr}
    {s s' : State S} {a : Act A} (hs : Pointed ptr s)
    (h : step cb viewsNull ptr s a = some s') : Pointed ptr s' := by
  cases step_effect h with
  | pass ev native _ _ _ eq =>
    unfold pass at eq
    split at eq
    · rw [eq]
      exact hs.skip (by simp) (by simp [State.received, Passed.event])
    · split at eq
      · rw [eq]
        exact hs.skip (by simp) (by simp [State.received, Passed.event])
      · next event he =>
        obtain ⟨places, hlt, hnodup, hfresh⟩ := hs
        rw [eq]
        refine ⟨places ++ [s.passed.length], fun i hi => ?_, ?_, ?_⟩
        · show i < (s.passed ++ [Passed.received event]).length
          rw [List.length_append]
          rcases List.mem_append.mp hi with hi | hi
          · exact Nat.lt_succ_of_lt (hlt i hi)
          · rw [List.mem_singleton.mp hi]
            exact Nat.lt_succ_self _
        · rw [List.nodup_append]
          refine ⟨hnodup, List.nodup_singleton _, fun i hi j hj e => ?_⟩
          rw [e, List.mem_singleton.mp hj] at hi
          exact Nat.lt_irrefl _ (hlt _ hi)
        · rw [received_snoc]
          refine Matching.snoc hfresh ?_
          unfold BAWrapperNB.nativeOnEventReceived BAWrapperNB.onEventReceived at he
          exact construct_fresh he
  | native a native _ _ eq =>
    rw [eq]
    exact hs.skip (Nat.le_refl _) rfl
  | getWrapper eq =>
    rw [eq]
    exact hs.skip (Nat.le_refl _) rfl
  | callback a callback _ eq =>
    rw [eq]
    exact hs.skip (Nat.le_refl _) rfl

theorem run_pointed {cb : BAWrapperNBCallback S A} {viewsNull : Bool} {ptr : Nat → Addr}
    {cf : NativeCallback} {inst : Option EventManagement} {callback : S} {as : List (Act A)}
    {s : State S} (h : run (step cb viewsNull ptr) (init cf inst callback) as = some s) :
    Pointed ptr s :=
  run_inv (fun _ _ _ hs ha => pointed_step hs ha) ⟨[], nofun, List.nodup_nil, .nil⟩ h

theorem Pointed.fresh {ptr : Nat → Addr} {s : State S} (h : Pointed ptr s) {event : BAEvent}
    (he : event ∈ s.received) : ∃ eventPtr, Fresh event eventPtr := by
  obtain ⟨places, _, _, hfresh⟩ := h
  obtain ⟨i, _, hi⟩ := Matching.exists_of_mem hfresh he
  exact ⟨_, hi⟩

/-- events received have distinct pointers -/
theorem Pointed.nodup {ptr : Nat → Addr} {s : State S} (h : Pointed ptr s)
    (hptr : Function.Injective ptr) {events : List BAEvent} (hsub : events.Sublist s.received) :
    (events.map BAEvent.mapping).Nodup := by
  obtain ⟨places, _, hnodup, hfresh⟩ := h
  refine List.Nodup.sublist (hsub.map _) (Matching.nodup_map ?_ hfresh hnodup)
  intro e i e' i' he he' heq
  obtain ⟨w, hw⟩ := he.mapped
  obtain ⟨w', hw'⟩ := he'.mapped
  rw [hw, hw', Option.some.injEq, Mapping.mk.injEq] at heq
  exact hptr heq.2

end Pipeline
end Wrapper
end BA
