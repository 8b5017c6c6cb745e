import BlackadderJNI.Wrapper.Outbound
import BlackadderJNI.Wrapper.Pipeline

/-!
# An application that answers what it receives

The wrapper in both directions, with one selector thread.  The application has a callback object
whose `eventReceived` reads the event and makes requests, on the thread of the worker; other
threads make requests of their own.

* `news`              what the application reads of an event;
* `Client`, `client`  the callback object, with the calls that `eventReceived` has still to make,
                      and the outbound path below it;
* `State`, `step`     the receive path around it; the two halves of the selector's loop take turns;
* `answers`           what an application says to one message after another;
* `answers_written`   the socket gets the answers to what the daemon sent, in order.
-/

namespace BA
namespace Wrapper
namespace Reactive
open Run
open SendPath (Tid)
open Outbound (Call Request Written)
open Pipeline (Sent Tidings Delivers Around NativeCallback)

/-! ## the application -/

structure News where
  type : BAEventType
  id : Bytes
  payload : Bytes
  deriving DecidableEq

/-- `getType` and `getId`, and for published data `getDataCopy`; an event of an unknown type is
left alone -/
def news (event : BAEvent) : Option News :=
  match event.getType, event.getId with
  | some type, .ok id =>
    if type = .publishedData then
      match event.getDataCopy.1 with
      | .ok payload => some ⟨type, id, payload⟩
      | .error _ => none
    else some ⟨type, id, []⟩
  | _, _ => none

variable {σ : Type}

structure Client (σ : Type) where
  app : σ
  /-- the calls that `eventReceived` has still to make -/
  calls : List Call
  outbound : Outbound.State

inductive ClientAct where
  /-- `eventReceived` makes its next call -/
  | next (heap : Nat → UInt8)
  /-- the other threads, and the path of the requests that have been made -/
  | other (a : Outbound.Act)

/-- a call of the thread `w` -/
def Calls (w : Tid) : Outbound.Act → Prop
  | .call t _ _ => t = w
  | .other _ => False

instance (w : Tid) : ∀ a, Decidable (Calls w a)
  | .call t _ _ => inferInstanceAs (Decidable (t = w))
  | .other _ => isFalse id

section
/- the worker makes its calls under the number `w` -/
variable (react : σ → News → σ × List Call) (pid : Nat) (w : Tid)

def eventReceived (c : Client σ) (event : BAEvent) : Client σ :=
  match news event with
  | some n => { c with app := (react c.app n).1, calls := (react c.app n).2 }
  | none => c

/-- no call is left, and the last one has returned -/
def returned (c : Client σ) : Bool :=
  c.calls.isEmpty && decide (PublishMemory.Idle c.outbound.memory w)

def clientStep (c : Client σ) : ClientAct → Option (Client σ)
  | .next heap =>
    match c.calls with
    | [] => none
    | call :: calls => (Outbound.step pid c.outbound (.call w heap call)).map fun outbound =>
      { c with calls := calls, outbound := outbound }
  | .other a =>
    if Calls w a then none
    else (Outbound.step pid c.outbound a).map fun outbound => { c with outbound := outbound }

def client : Pipeline.BAWrapperNBCallback (Client σ) ClientAct where
  eventReceived := eventReceived react
  returned := returned w
  step := clientStep pid w

end

/-! ## the system -/

abbrev State (σ : Type) := Pipeline.State (Client σ)

def init (app : σ) : State σ :=
  Pipeline.init .onEventReceived (some .baWrapperNB) ⟨app, [], Outbound.init⟩

inductive Act where
  /-- the socket is readable: the block that receives -/
  | receive (r : Reply)
  /-- it is not -/
  | skip
  | other (a : Pipeline.Act ClientAct)

/-- the steps of the two halves of the loop -/
def Act.parts : Act → List (Pipeline.Act ClientAct)
  | .receive r => [.native (.read r), .callback (.other (.other (.path .receive)))]
  | .skip => [.callback (.other (.other (.path .receive)))]
  | .other a => [a]

/-- the selector is not inside the block that receives -/
def outside : WorkerLoop.SelectorPc → Bool
  | .read => true
  | _ => false

/-- the selector thread has come to this statement -/
def turn (s : State σ) : Act → Bool
  | .receive _ => decide (s.callback.outbound.memory.send.pc = .testRead) &&
      decide (.sock ∈ s.callback.outbound.memory.send.readSet)
  | .skip => decide (.sock ∉ s.callback.outbound.memory.send.readSet)
  | .other (.native (.read _)) => false
  | .other (.callback (.other (.other (.path .receive)))) => false
  | .other (.callback (.other (.other (.path (.send _ _))))) => outside s.native.selector
  | .other _ => true

def step (react : σ → News → σ × List Call) (pid : Nat) (w : Tid) (viewsNull : Bool)
    (ptr : Nat → Addr) (s : State σ) (a : Act) : Option (State σ) :=
  if turn s a then run (Pipeline.step (client react pid w) viewsNull ptr) s a.parts else none

/-! ## what the application says -/

/-- its state after some news, and the requests that the checks of the library accept -/
def answers (react : σ → News → σ × List Call) (app : σ) (ns : List News) : σ × List Request :=
  ns.foldl (fun r n => ((react r.1 n).1, r.2 ++ (react r.1 n).2.filterMap Call.request)) (app, [])

theorem answers_snoc (react : σ → News → σ × List Call) (app : σ) (ns : List News) (n : News) :
    answers react app (ns ++ [n]) =
      ((react (answers react app ns).1 n).1,
        (answers react app ns).2 ++
          (react (answers react app ns).1 n).2.filterMap Call.request) := by
  unfold answers
  rw [List.foldl_append, List.foldl_cons, List.foldl_nil]

/-- what a message tells -/
def told (m : Sent) : News := ⟨m.type, m.id, if m.type = .publishedData then m.payload else []⟩

theorem news_of_tidings {event : BAEvent} {m : Sent} (h : Tidings event m) :
    news event = some (told m) := by
  unfold news told
  rw [h.type, h.id]
  dsimp only
  by_cases hm : m.type = .publishedData
  · rw [if_pos hm, if_pos hm, (h.published hm).2]
  · rw [if_neg hm, if_neg hm]

theorem news_of_received {events : List BAEvent} {ms : List Sent}
    (h : List.Forall₂ Tidings events ms) : events.filterMap news = ms.map told := by
  induction h with
  | nil => rfl
  | cons he _ ih => rw [List.filterMap_cons_some (news_of_tidings he), ih, List.map_cons]

/-! ## the client on its own -/

/-- what the other threads ask for in a step -/
def ClientAct.requests : ClientAct → List (Tid × Request)
  | .next _ => []
  | .other a => a.requests

def ClientAct.EntersDirect : ClientAct → Prop
  | .next _ => False
  | .other a => a.EntersDirect

/-- the outbound path has made a run `os` of its own, with the calls of the worker and of the
other threads -/
structure Answered (react : σ → News → σ × List Call) (pid : Nat) (w : Tid) (app : σ)
    (c : Client σ) (received : List BAEvent) (others : List ClientAct)
    (os : List Outbound.Act) : Prop where
  run : run (Outbound.step pid) Outbound.init os = some c.outbound
  state : c.app = (answers react app (received.filterMap news)).1
  mine : Mailbox.ofSender w (os.flatMap Outbound.Act.requests) ++
    c.calls.filterMap Call.request = (answers react app (received.filterMap news)).2
  theirs : ∀ t, t ≠ w → Mailbox.ofSender t (os.flatMap Outbound.Act.requests) =
    Mailbox.ofSender t (others.flatMap ClientAct.requests)
  direct : ∀ o ∈ os, o.EntersDirect → ∃ a ∈ others, a.EntersDirect

section
variable {react : σ → News → σ × List Call} {pid : Nat} {w : Tid} {app : σ}

theorem Answered.init : Answered react pid w app ⟨app, [], Outbound.init⟩ [] [] [] where
  run := rfl
  state := rfl
  mine := rfl
  theirs _ _ := rfl
  direct := nofun

variable {c c' : Client σ} {received : List BAEvent} {others : List ClientAct}
  {os : List Outbound.Act}

/-- `eventReceived` begins -/
theorem Answered.eventReceived (h : Answered react pid w app c received others os)
    (hreturned : returned w c = true) (event : BAEvent) :
    Answered react pid w app (Reactive.eventReceived react c event) (received ++ [event]) others
      os := by
  have hcalls : c.calls = [] := List.isEmpty_iff.mp (Bool.and_elim_left hreturned)
  have hmine := h.mine
  rw [hcalls, List.filterMap_nil, List.append_nil] at hmine
  unfold Reactive.eventReceived
  cases hn : news event with
  | none =>
    have hsame : (received ++ [event]).filterMap news = received.filterMap news := by
      rw [List.filterMap_append, List.filterMap_cons_none hn, List.filterMap_nil, List.append_nil]
    exact ⟨h.run, hsame ▸ h.state, hsame ▸ h.mine, h.theirs, h.direct⟩
  | some n =>
    have hsnoc : (received ++ [event]).filterMap news = received.filterMap news ++ [n] := by
      rw [List.filterMap_append, List.filterMap_cons_some hn, List.filterMap_nil]
    refine ⟨h.run, ?_, ?_, h.theirs, h.direct⟩
    · rw [hsnoc, answers_snoc, ← h.state]
    · rw [hsnoc, answers_snoc, hmine, ← h.state]

/-- a step of the outbound path, where the calls begun and the calls left stay as they should -/
theorem Answered.outbound (h : Answered react pid w app c received others os) {o : Outbound.Act}
    {outbound : Outbound.State} {calls : List Call} {a : ClientAct}
    (hstep : Outbound.step pid c.outbound o = some outbound)
    (hmine : Mailbox.ofSender w o.requests ++ calls.filterMap Call.request =
      c.calls.filterMap Call.request)
    (htheirs : ∀ t, t ≠ w → Mailbox.ofSender t o.requests = Mailbox.ofSender t a.requests)
    (hdirect : o.EntersDirect → a.EntersDirect) :
    Answered react pid w app { c with calls := calls, outbound := outbound } received
      (others ++ [a]) (os ++ [o]) := by
  refine ⟨run_snoc _ h.run hstep, h.state, ?_, fun t ht => ?_, fun o' ho' hd => ?_⟩
  · rw [List.flatMap_append, List.flatMap_singleton, Mailbox.ofSender_append, List.append_assoc,
      hmine]
    exact h.mine
  · rw [List.flatMap_append, List.flatMap_singleton, Mailbox.ofSender_append, h.theirs t ht,
      htheirs t ht, ← Mailbox.ofSender_append, List.flatMap_append, List.flatMap_singleton]
  · rcases List.mem_append.mp ho' with ho' | ho'
    · obtain ⟨b, hb, hbd⟩ := h.direct o' ho' hd
      exact ⟨b, List.mem_append_left _ hb, hbd⟩
    · rw [List.mem_singleton.mp ho'] at hd
      exact ⟨a, List.mem_append_right _ List.mem_cons_self, hdirect hd⟩

theorem requests_of_not_calls {a : Outbound.Act} (h : ¬ Calls w a) :
    Mailbox.ofSender w a.requests = [] := by
  cases a with
  | call t heap call => exact (Mailbox.ofSender_map w t _).trans (if_neg h)
  | other a => rfl

theorem Answered.clientStep (h : Answered react pid w app c received others os) {a : ClientAct}
    (hstep : clientStep pid w c a = some c') :
    ∃ o, Answered react pid w app c' received (others ++ [a]) (os ++ [o]) := by
  cases a with
  | next heap =>
    dsimp only [Reactive.clientStep] at hstep
    split at hstep
    · cases hstep
    · next call calls hcalls =>
      obtain ⟨outbound, ho, rfl⟩ := Option.map_eq_some_iff.mp hstep
      refine ⟨.call w heap call, h.outbound ho ?_ (fun t ht => ?_) False.elim⟩
      · rw [hcalls]
        show Mailbox.ofSender w (call.request.toList.map (w, ·)) ++ _ = _
        rw [Mailbox.ofSender_map, if_pos rfl]
        cases hq : call.request with
        | none => rw [List.filterMap_cons_none hq]; rfl
        | some q => rw [List.filterMap_cons_some hq]; rfl
      · exact (Mailbox.ofSender_map t w _).trans (if_neg ht.symm)
  | other a =>
    dsimp only [Reactive.clientStep] at hstep
    split at hstep
    · cases hstep
    · next hcalls =>
      obtain ⟨outbound, ho, rfl⟩ := Option.map_eq_some_iff.mp hstep
      refine ⟨a, h.outbound ho ?_ (fun t _ => rfl) id⟩
      rw [requests_of_not_calls hcalls]
      rfl

/-- **The outbound path below the callback object.** -/
theorem run_answered {bs : List (Around ClientAct)}
    (h : run (client react pid w).around ⟨app, [], Outbound.init⟩ bs = some c) :
    ∃ os, Answered react pid w app c (bs.flatMap Around.received) (bs.flatMap Around.others)
      os := by
  refine run_hist (I := fun d done => ∃ os, Answered react pid w app d
    (done.flatMap Around.received) (done.flatMap Around.others) os) ⟨[], .init⟩
    (fun d done b e ⟨os, hd⟩ hb => ?_) h
  rw [List.flatMap_append, List.flatMap_singleton, List.flatMap_append, List.flatMap_singleton]
  cases b with
  | eventReceived event =>
    obtain ⟨hreturned, he⟩ := Option.ite_none_right_eq_some.mp hb
    obtain rfl := Option.some.inj he
    refine ⟨os, ?_⟩
    rw [show Around.others (.eventReceived event) = ([] : List ClientAct) from rfl,
      List.append_nil]
    exact hd.eventReceived hreturned event
  | other a =>
    obtain ⟨o, ho⟩ := hd.clientStep (show clientStep pid w d a = some e from hb)
    refine ⟨os ++ [o], ?_⟩
    rw [show Around.received (.other a) = [] from rfl, List.append_nil]
    exact ho

end

/-! ## whole runs -/

def Act.replies (a : Act) : List Reply := a.parts.flatMap Pipeline.Act.replies

/-- the steps around the callback object -/
def Act.around (a : Act) : List ClientAct := a.parts.flatMap Pipeline.Act.others

/-- what the other threads ask for -/
def Act.requests (a : Act) : List (Tid × Request) := a.around.flatMap ClientAct.requests

/-- `setCallback` is called with `onEventReceived` only -/
def Act.KeepsCallback (a : Act) : Prop := ∀ p ∈ a.parts, Pipeline.KeepsCallback p

/-- a message that points into a Java buffer enters the queue -/
def Act.EntersDirect (a : Act) : Prop := ∃ b ∈ a.around, b.EntersDirect

theorem run_parts {react : σ → News → σ × List Call} {pid : Nat} {w : Tid} {viewsNull : Bool}
    {ptr : Nat → Addr} {s t : State σ} {as : List Act}
    (h : run (step react pid w viewsNull ptr) s as = some t) :
    run (Pipeline.step (client react pid w) viewsNull ptr) s (as.flatMap Act.parts) = some t :=
  run_proj id Act.parts (fun _ _ _ ha => (Option.ite_none_right_eq_some.mp ha).2) h

/-- **The wrapper makes of the application a machine from messages to requests.**  In every
interleaving of the worker, the selector, the daemon and any number of other threads, without
direct messages: the application is in the state that the messages the worker has passed on lead
to, which are the messages sent but for those in flight.  What it answers to them, one message after
another, is, in this order, what the socket got of the worker's requests, what is queued, what
waits to enter the queue, and what `eventReceived` has still to ask for.  The requests of every
other thread keep their order as well. -/
theorem answers_written (react : σ → News → σ × List Call) (pid : Nat) (w : Tid)
    (viewsNull : Bool) (ptr : Nat → Addr) (app : σ) (as : List Act) (s : State σ)
    (h : run (step react pid w viewsNull ptr) (init app) as = some s) (msgs : List Sent)
    (hsent : List.Forall₂ Delivers (as.flatMap Act.replies) msgs)
    (hkeeps : ∀ a ∈ as, a.KeepsCallback) (hdirect : ∀ a ∈ as, ¬ a.EntersDirect) :
    ∃ done rest, msgs = done ++ rest ∧ rest.length = (Pipeline.inFlight s.native).length ∧
      s.callback.app = (answers react app (done.map told)).1 ∧
      ∃ written queued pending : List (Tid × Request),
        List.Forall₂ (fun bytes e => Written pid bytes e.2) s.callback.outbound.socket written ∧
        queued.length = s.callback.outbound.memory.send.outputQueue.length ∧
        pending.map Prod.fst = s.callback.outbound.memory.pending.map Prod.fst ∧
        Mailbox.ofSender w (written ++ queued) ++ Mailbox.ofSender w pending ++
          s.callback.calls.filterMap Call.request = (answers react app (done.map told)).2 ∧
        ∀ t, t ≠ w → Mailbox.ofSender t (written ++ queued) ++ Mailbox.ofSender t pending =
          Mailbox.ofSender t (as.flatMap Act.requests) := by
  have hrun := run_parts h
  -- the receive path
  have hreplies : (as.flatMap Act.parts).flatMap Pipeline.Act.replies =
      as.flatMap Act.replies := List.flatMap_assoc
  obtain ⟨done, rest, hmsgs, hrest, hintact⟩ := Pipeline.passed_sent hrun (hreplies ▸ hsent)
  have hready : Pipeline.Ready s := Pipeline.run_ready (fun p hp => by
    obtain ⟨a, ha, hp⟩ := List.mem_flatMap.mp hp
    exact hkeeps a ha p hp) hrun
  have hnews : s.received.filterMap news = done.map told :=
    news_of_received (hready.carries hintact)
  -- the callback object, and the outbound path below it
  obtain ⟨bs, hbs, hreceived, hothers⟩ := Pipeline.run_around hrun
  obtain ⟨os, hos⟩ := run_answered hbs
  have haround : (as.flatMap Act.parts).flatMap Pipeline.Act.others = as.flatMap Act.around :=
    List.flatMap_assoc
  rw [hreceived, hothers, haround] at hos
  have hno : ∀ o ∈ os, ¬ o.EntersDirect := by
    intro o ho hd
    obtain ⟨b, hb, hbd⟩ := hos.direct o ho hd
    obtain ⟨a, ha, hb⟩ := List.mem_flatMap.mp hb
    exact hdirect a ha ⟨b, hb, hbd⟩
  obtain ⟨b, ⟨cs, hcs, hcalled, _⟩, hsim⟩ := Outbound.run_sim_mailbox hos.run hno
  have hprogram : ∀ t, Mailbox.ofSender t (b.taken ++ b.queued) ++ Mailbox.ofSender t b.pending =
      Mailbox.ofSender t (os.flatMap Outbound.Act.requests) := by
    intro t
    rw [← hcalled]
    exact Mailbox.run_program hcs t
  refine ⟨done, rest, hmsgs, hrest, hnews ▸ hos.state, b.taken, b.queued, b.pending, hsim.taken,
    hsim.queued.length_eq.symm, hsim.senders.symm, ?_, fun t ht => ?_⟩
  · rw [hprogram, ← hnews]
    exact hos.mine
  · rw [hprogram, hos.theirs t ht]
    exact congrArg (Mailbox.ofSender t) List.flatMap_assoc

/-- an application that publishes a scope for every message -/
def publisher (count : Nat) (_ : News) : Nat × List Call :=
  (count + 1, [.item .publishScope Outbound.rootId Outbound.noBytes 0 none])

/-- the selector reads a message, once `select` reports the socket, and hands its event on -/
def readMessage (r : Reply) : List Act :=
  [.other (.callback (.other (.other (.path (.select {.sock} ∅))))),
    .other (.callback (.other (.other (.path .readPipe)))), .receive r] ++
    ([.selectorLock, .push, .signal, .selectorUnlock].map fun a => .other (.native a)) ++
    [.other (.callback (.other (.other (.path (.send 0 none))))),
      .other (.callback (.other (.other (.path .rearm))))]

def works (n : Nat) : List Act := List.replicate n (.other (.native .work))

/-- Two messages are answered, and a third one comes in.  The socket has got the first answer, the
second one waits to enter the queue. -/
def twoAnswers : List Act :=
  works 2 ++ readMessage (Reply.whole stopDatagram stopDatagram_length) ++ works 5 ++
    readMessage (Reply.whole newData newData_length) ++ works 1 ++
    [.other (.callback (.next fun _ => 9)),
      .other (.callback (.other (.other (.enqueue 7 ⟨0, .none, 0, 1, none, []⟩))))] ++
    works 6 ++ [.other (.callback (.next fun _ => 9)),
      .other (.callback (.other (.other (.path (.select {.pipe} ∅))))),
      .other (.callback (.other (.other (.path .readPipe)))), .skip,
      .other (.callback (.other (.other (.path (.send 28 none))))),
      .other (.callback (.other (.other (.path .rearm))))] ++
    readMessage (Reply.whole stopDatagram stopDatagram_length)

theorem answers_written_two :
    ∃ s, run (step publisher 1 7 true fun n => 64 * (n + 1)) (init 0) twoAnswers = some s ∧
      s.callback.app = 2 ∧ (Pipeline.inFlight s.native).length = 1 ∧
      s.callback.outbound.memory.pending.map Prod.fst = [7] ∧
      List.Forall₂ (Written 1) s.callback.outbound.socket
        [.item .publishScope ⟨Outbound.rootId.bytes, [], 0, none⟩] := by
  obtain ⟨s, hs, happ, hflight, hq, hp, hcalls, hone⟩ :
      ∃ s, run (step publisher 1 7 true fun n => 64 * (n + 1)) (init 0) twoAnswers = some s ∧
        s.callback.app = 2 ∧ (Pipeline.inFlight s.native).length = 1 ∧
        s.callback.outbound.memory.send.outputQueue = [] ∧
        s.callback.outbound.memory.pending.map Prod.fst = [7] ∧ s.callback.calls = [] ∧
        s.callback.outbound.socket.length = 1 :=
    ⟨_, rfl, rfl, rfl, rfl, rfl, rfl, rfl⟩
  have hkeeps : ∀ a ∈ twoAnswers, a.KeepsCallback := by
    simp [twoAnswers, works, readMessage, Act.KeepsCallback, Act.parts, Pipeline.KeepsCallback]
  have hdirect : ∀ a ∈ twoAnswers, ¬ a.EntersDirect := by
    simp [twoAnswers, works, readMessage, Act.EntersDirect, Act.around, Act.parts,
      Pipeline.Act.others, ClientAct.EntersDirect, Outbound.Act.EntersDirect,
      PublishMemory.EntersDirect, PublishMemory.Msg.direct]
  obtain ⟨done, rest, hmsgs, hrest, _, written, queued, pending, hall, hlen, hpending, hmine, _⟩ :=
    answers_written publisher 1 7 true (fun n => 64 * (n + 1)) 0 twoAnswers s hs
      Pipeline.threeSent Pipeline.threeSent_delivered hkeeps hdirect
  rw [hflight] at hrest
  rw [hq] at hlen
  rw [hp] at hpending
  obtain ⟨m, rfl⟩ := List.length_eq_one_iff.mp hrest
  obtain ⟨rfl, _⟩ := List.append_inj'
    (show [Pipeline.stopSent, Pipeline.newDataSent] ++ [Pipeline.stopSent] = done ++ [m] from hmsgs)
    rfl
  obtain rfl := List.eq_nil_of_length_eq_zero hlen
  obtain ⟨⟨t, q⟩, rfl⟩ := List.length_eq_one_iff.mp (hall.length_eq.symm.trans hone)
  obtain ⟨⟨t', q'⟩, rfl, ht'⟩ := List.map_eq_singleton_iff.mp hpending
  obtain rfl : t' = 7 := ht'
  rw [hcalls, List.append_nil, Mailbox.ofSender_cons] at hmine
  split at hmine
  · obtain ⟨bytes, rest, hw, hnil, hsocket⟩ := List.forall₂_cons_right_iff.mp hall
    cases hnil
    have hq : q = .item .publishScope ⟨Outbound.rootId.bytes, [], 0, none⟩ :=
      (List.cons.inj hmine).1
    exact ⟨s, hs, happ, hflight, hp, hsocket ▸ .cons (hq ▸ hw) .nil⟩
  · cases hmine

end Reactive
end Wrapper
end BA
