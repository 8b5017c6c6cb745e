import BlackadderJNI.Callback.Dispatch
import BlackadderJNI.Wrapper.Classification
import BlackadderJNI.Wrapper.Pipeline

/-!
# Events through the classifier, to the handlers

`HashClassifierCallback` at the end of the pipeline, while other threads register and unregister.
A call of `eventReceived` is the two synchronized blocks of `Callback/Dispatch.lean`; the worker
goes on when it has returned.

* `Classifier`, `classifierCallback`   the callback object, with the registrations made so far and
                            a log of the calls that have returned;
* `Entry.Explained`         a call looked at the data table at one instant of the registrations,
                            and at the control table at the same or a later one, both within the
                            call;
* `Inv`                     every entry is explained, and the calls are one after the other;
* `delivered_in_order`      so the handlers are called for what the daemon sent, in order, each by
                            the method of its type, as the tables were in that order of instants.
-/

namespace BA
namespace Wrapper
namespace HandlerDelivery
open Run Pipeline HashClassifierCallback

variable {H : Type}

/-- a call of `eventReceived` that has returned, with the number of registrations made before it
started and before it returned -/
structure Entry (H : Type) where
  event : BAEvent
  out : Delivery H H
  started : Nat
  finished : Nat

structure Classifier (H : Type) where
  dispatch : Dispatch.State H
  ops : List (Op H H)
  /-- the call that has not returned, and the registrations made before it started -/
  calling : Option (BAEvent × Nat)
  log : List (Entry H)

def init : Classifier H := ⟨Dispatch.init ⟨none, []⟩, [], none, []⟩

def eventReceived (c : Classifier H) (event : BAEvent) : Classifier H :=
  { c with
    dispatch := ⟨{ c.dispatch.call with pc := .start }, event.toBAEvent⟩
    calling := some (event, c.ops.length) }

def returned (c : Classifier H) : Bool :=
  match c.dispatch.call.pc with
  | .returned _ => true
  | _ => false

/-- the classifier after a block that leads to `dispatch` -/
def record (c : Classifier H) (a : HashClassifierCallback.Act H H) (dispatch : Dispatch.State H) :
    Classifier H :=
  let ops := c.ops ++ (Dispatch.Act.block a).op.toList
  match c.calling, dispatch.call.pc with
  | some (event, started), .returned out =>
    ⟨dispatch, ops, none, c.log ++ [⟨event, out, started, c.ops.length⟩]⟩
  | calling, _ => ⟨dispatch, ops, calling, c.log⟩

def classifierCallback (scopeIdLen : Nat) :
    BAWrapperNBCallback (Classifier H) (HashClassifierCallback.Act H H) where
  eventReceived := eventReceived
  returned := returned
  step c a := (Dispatch.step scopeIdLen c.dispatch (.block a)).map (record c a)

/-! ## what a call has looked at -/

/-- the delivery with the data table after `i` registrations and the control table after `j` -/
def deliveryAt (k : Nat) (ops : List (Op H H)) (event : BA.BAEvent) (i j : Nat) : Delivery H H :=
  HashClassifierCallback.dispatch (dataBlock (after k (ops.take i)).dataHandlerMap event)
    (controlBlock k (after k (ops.take j)).controlEventHandlerLPM event)

structure Entry.Explained (k : Nat) (ops : List (Op H H)) (x : Entry H) : Prop where
  instants : ∃ i j, x.started ≤ i ∧ i ≤ j ∧ j ≤ x.finished ∧
    x.out = deliveryAt k ops x.event.toBAEvent i j
  finished : x.finished ≤ ops.length

theorem deliveryAt_append {k : Nat} {ops more : List (Op H H)} {event : BA.BAEvent} {i j : Nat}
    (hi : i ≤ ops.length) (hj : j ≤ ops.length) :
    deliveryAt k (ops ++ more) event i j = deliveryAt k ops event i j := by
  unfold deliveryAt
  rw [List.take_append_of_le_length hi, List.take_append_of_le_length hj]

theorem Entry.Explained.append {k : Nat} {ops : List (Op H H)} {x : Entry H}
    (h : x.Explained k ops) (more : List (Op H H)) : x.Explained k (ops ++ more) := by
  obtain ⟨i, j, hi, hij, hj, hout⟩ := h.instants
  have hfin := h.finished
  refine ⟨⟨i, j, hi, hij, hj, ?_⟩, ?_⟩
  · rw [deliveryAt_append (by omega) (by omega)]
    exact hout
  · rw [List.length_append]
    omega

/-- no registration during the call: it is a sequential one -/
theorem Entry.Explained.sequential {k : Nat} {ops : List (Op H H)} {x : Entry H}
    (h : x.Explained k ops) (hx : x.started = x.finished) :
    x.out = HashClassifierCallback.eventReceived k (after k (ops.take x.started))
      x.event.toBAEvent := by
  obtain ⟨i, j, hi, hij, hj, hout⟩ := h.instants
  have hi' : i = x.started := by omega
  have hj' : j = x.started := by omega
  rw [hout, hi', hj']
  rfl

/-! ## the invariant -/

/-- what is known of the call by where it stands -/
def Progress (k : Nat) (c : Classifier H) : Pc H H → Prop
  | .start => ∃ event started, c.calling = some (event, started) ∧
      c.dispatch.event = event.toBAEvent ∧ started ≤ c.ops.length
  | .control => ∃ event started i, c.calling = some (event, started) ∧
      c.dispatch.event = event.toBAEvent ∧ started ≤ i ∧ i ≤ c.ops.length ∧
      dataBlock (after k (c.ops.take i)).dataHandlerMap event.toBAEvent = none
  | .returned _ => c.calling = none

structure Inv (k : Nat) (c : Classifier H) : Prop where
  tables : c.dispatch.call.tables = after k c.ops
  progress : Progress k c c.dispatch.call.pc
  explained : ∀ x ∈ c.log, x.Explained k c.ops
  ordered : c.log.Pairwise fun x y => x.finished ≤ y.started
  before : ∀ p ∈ c.calling, ∀ x ∈ c.log, x.finished ≤ p.2

theorem Inv.init (k : Nat) : Inv k (init : Classifier H) where
  tables := rfl
  progress := rfl
  explained := nofun
  ordered := List.Pairwise.nil
  before := nofun

theorem Inv.eventReceived {k : Nat} {c : Classifier H} (hc : Inv k c) (event : BAEvent) :
    Inv k (eventReceived c event) where
  tables := hc.tables
  progress := ⟨event, c.ops.length, rfl, rfl, Nat.le_refl _⟩
  explained := hc.explained
  ordered := hc.ordered
  before := by
    rintro p ⟨⟩ x hx
    exact (hc.explained x hx).finished

/-- a registration during or between the calls -/
theorem Inv.other {k : Nat} {c : Classifier H} (hc : Inv k c) (o : Op H H) :
    Inv k ⟨⟨{ c.dispatch.call with tables := apply k c.dispatch.call.tables o }, c.dispatch.event⟩,
      c.ops ++ [o], c.calling, c.log⟩ := by
  refine ⟨?_, ?_, fun x hx => (hc.explained x hx).append [o], hc.ordered, hc.before⟩
  · show apply k c.dispatch.call.tables o = _
    rw [hc.tables, after_snoc]
  · have hp := hc.progress
    show Progress k _ c.dispatch.call.pc
    cases hpc : c.dispatch.call.pc with
    | start =>
      rw [hpc] at hp
      obtain ⟨event, started, hcall, he, hs⟩ := hp
      exact ⟨event, started, hcall, he, by simp; omega⟩
    | control =>
      rw [hpc] at hp
      obtain ⟨event, started, i, hcall, he, hs, hi, hd⟩ := hp
      refine ⟨event, started, i, hcall, he, hs, by simp; omega, ?_⟩
      show dataBlock (after k ((c.ops ++ [o]).take i)).dataHandlerMap _ = none
      rw [List.take_append_of_le_length hi]
      exact hd
    | returned out =>
      rw [hpc] at hp
      exact hp

/-- the call returns `out` -/
theorem Inv.finish {k : Nat} {c : Classifier H} (hc : Inv k c) {event : BAEvent} {started : Nat}
    (hcall : c.calling = some (event, started)) (out : Delivery H H)
    (hout : ∃ i j, started ≤ i ∧ i ≤ j ∧ j ≤ c.ops.length ∧
      out = deliveryAt k c.ops event.toBAEvent i j) (dispatch : Dispatch.State H)
    (htables : dispatch.call.tables = c.dispatch.call.tables)
    (hpc : dispatch.call.pc = .returned out) :
    Inv k ⟨dispatch, c.ops, none, c.log ++ [⟨event, out, started, c.ops.length⟩]⟩ := by
  refine ⟨htables.trans hc.tables, ?_, fun x hx => ?_, ?_, nofun⟩
  · show Progress k _ dispatch.call.pc
    rw [hpc]
    rfl
  · rcases List.mem_append.mp hx with hx | hx
    · exact hc.explained x hx
    · rw [List.mem_singleton.mp hx]
      exact ⟨hout, Nat.le_refl _⟩
  · rw [List.pairwise_append]
    refine ⟨hc.ordered, List.pairwise_singleton _ _, fun x hx y hy => ?_⟩
    rw [List.mem_singleton.mp hy]
    exact hc.before _ hcall x hx

/-! ## what a step can do -/

/-- a registration, a block that leaves the call unfinished, or one that makes it return -/
inductive Effect (k : Nat) (c c' : Classifier H) : HashClassifierCallback.Act H H → Prop
  | other (o : Op H H)
      (eq : c' = ⟨⟨{ c.dispatch.call with tables := apply k c.dispatch.call.tables o },
        c.dispatch.event⟩, c.ops ++ [o], c.calling, c.log⟩) : Effect k c c' (.other o)
  | dataMiss (pc : c.dispatch.call.pc = .start)
      (found : dataBlock c.dispatch.call.tables.dataHandlerMap c.dispatch.event = none)
      (eq : c' = ⟨⟨{ c.dispatch.call with pc := .control }, c.dispatch.event⟩, c.ops, c.calling,
        c.log⟩) : Effect k c c' .dataBlock
  | dataHit (event : BAEvent) (started : Nat) (handler : H) (pc : c.dispatch.call.pc = .start)
      (calling : c.calling = some (event, started))
      (found : dataBlock c.dispatch.call.tables.dataHandlerMap c.dispatch.event = some handler)
      (eq : c' = ⟨⟨{ c.dispatch.call with pc := .returned (.publishedData handler) },
        c.dispatch.event⟩, c.ops, none,
        c.log ++ [⟨event, .publishedData handler, started, c.ops.length⟩]⟩) :
      Effect k c c' .dataBlock
  | control (event : BAEvent) (started : Nat) (out : Delivery H H)
      (pc : c.dispatch.call.pc = .control) (calling : c.calling = some (event, started))
      (found : out =
        controlBlock k c.dispatch.call.tables.controlEventHandlerLPM c.dispatch.event)
      (eq : c' = ⟨⟨{ c.dispatch.call with pc := .returned out }, c.dispatch.event⟩, c.ops, none,
        c.log ++ [⟨event, out, started, c.ops.length⟩]⟩) : Effect k c c' .controlBlock

theorem record_returned {c : Classifier H} {event : BAEvent} {started : Nat}
    (hcall : c.calling = some (event, started)) {a : HashClassifierCallback.Act H H}
    (ha : (Dispatch.Act.block a).op = none) (out : Delivery H H) (dispatch : Dispatch.State H)
    (hpc : dispatch.call.pc = .returned out) :
    record c a dispatch =
      ⟨dispatch, c.ops, none, c.log ++ [⟨event, out, started, c.ops.length⟩]⟩ := by
  unfold record
  rw [hcall, hpc, ha]
  simp

theorem record_open {c : Classifier H} {a : HashClassifierCallback.Act H H}
    {dispatch : Dispatch.State H}
    (h : c.calling = none ∨ ∀ out, dispatch.call.pc ≠ .returned out) :
    record c a dispatch =
      ⟨dispatch, c.ops ++ (Dispatch.Act.block a).op.toList, c.calling, c.log⟩ := by
  unfold record
  rcases h with h | h
  · rw [h]
  · cases hpc : dispatch.call.pc with
    | returned out => exact absurd hpc (h out)
    | _ => cases c.calling <;> rfl

theorem step_effect {k : Nat} {c c' : Classifier H} (hc : Inv k c)
    {a : HashClassifierCallback.Act H H} (h : (classifierCallback k).step c a = some c') :
    Effect k c c' a := by
  obtain ⟨dispatch, hd, e⟩ := Option.map_eq_some_iff.mp h
  obtain ⟨call, hcall, rfl⟩ := Option.map_eq_some_iff.mp hd
  have hp := hc.progress
  cases a with
  | other o =>
    cases hcall
    refine .other o (e.symm.trans (record_open ?_))
    cases hpc : c.dispatch.call.pc with
    | returned out =>
      rw [hpc] at hp
      exact Or.inl hp
    | _ => exact Or.inr fun out => nofun
  | dataBlock =>
    dsimp only [HashClassifierCallback.step] at hcall
    split at hcall
    · next hpc =>
      rw [hpc] at hp
      obtain ⟨event, started, hcalling, _, _⟩ := hp
      split at hcall
      · next handler hfound =>
        cases hcall
        exact .dataHit event started handler hpc hcalling hfound
          (e.symm.trans (record_returned hcalling rfl _ _ rfl))
      · next hfound =>
        cases hcall
        have hopen : ∀ out, (Pc.control : Pc H H) ≠ .returned out := nofun
        refine .dataMiss hpc hfound (e.symm.trans ((record_open (Or.inr hopen)).trans ?_))
        rw [show (Dispatch.Act.block (.dataBlock : HashClassifierCallback.Act H H)).op = none
          from rfl, Option.toList_none, List.append_nil]
    · cases hcall
  | controlBlock =>
    dsimp only [HashClassifierCallback.step] at hcall
    split at hcall
    · next hpc =>
      rw [hpc] at hp
      obtain ⟨event, started, _, hcalling, _⟩ := hp
      cases hcall
      exact .control event started _ hpc hcalling rfl
        (e.symm.trans (record_returned hcalling rfl _ _ rfl))
    · cases hcall

theorem deliveryAt_length (k : Nat) (ops : List (Op H H)) (event : BA.BAEvent) (i : Nat) :
    deliveryAt k ops event i ops.length =
      HashClassifierCallback.dispatch (dataBlock (after k (ops.take i)).dataHandlerMap event)
        (controlBlock k (after k ops).controlEventHandlerLPM event) := by
  unfold deliveryAt
  rw [List.take_length]

theorem Inv.step {k : Nat} {c c' : Classifier H} (hc : Inv k c)
    {a : HashClassifierCallback.Act H H} (h : (classifierCallback k).step c a = some c') :
    Inv k c' := by
  have hp := hc.progress
  cases step_effect hc h with
  | other o eq =>
    rw [eq]
    exact hc.other o
  | dataMiss pc found eq =>
    rw [pc] at hp
    obtain ⟨event, started, hcalling, he, hs⟩ := hp
    rw [eq]
    refine ⟨hc.tables, ⟨event, started, c.ops.length, hcalling, he, hs, Nat.le_refl _, ?_⟩,
      hc.explained, hc.ordered, hc.before⟩
    show dataBlock (after k (c.ops.take c.ops.length)).dataHandlerMap _ = none
    rw [List.take_length, ← hc.tables, ← he]
    exact found
  | dataHit event started handler pc calling found eq =>
    rw [pc] at hp
    obtain ⟨event', started', hcalling, he, hs⟩ := hp
    cases calling.symm.trans hcalling
    rw [eq]
    refine hc.finish calling _ ⟨c.ops.length, c.ops.length, hs, Nat.le_refl _, Nat.le_refl _, ?_⟩ _
      rfl rfl
    rw [deliveryAt_length, List.take_length, ← hc.tables, ← he, found]
    rfl
  | control event started out pc calling found eq =>
    rw [pc] at hp
    obtain ⟨event', started', i, hcalling, he, hs, hi, hd⟩ := hp
    cases calling.symm.trans hcalling
    rw [eq]
    refine hc.finish calling out ⟨i, c.ops.length, hs, hi, Nat.le_refl _, ?_⟩ _ rfl rfl
    rw [deliveryAt_length, hd, ← hc.tables, ← he, found]
    rfl

/-! ## whole runs -/

/-- the events that `eventReceived` was entered with -/
def Classifier.entered (c : Classifier H) : List BAEvent :=
  c.log.map Entry.event ++ (c.calling.map Prod.fst).toList

theorem step_entered {k : Nat} {c c' : Classifier H} (hc : Inv k c)
    {a : HashClassifierCallback.Act H H} (h : (classifierCallback k).step c a = some c') :
    c'.entered = c.entered ∧ c'.ops = c.ops ++ (Dispatch.Act.block a).op.toList := by
  cases step_effect hc h with
  | other o eq =>
    rw [eq]
    exact ⟨rfl, rfl⟩
  | dataMiss pc found eq =>
    rw [eq]
    exact ⟨rfl, (List.append_nil _).symm⟩
  | dataHit event started handler pc calling found eq =>
    rw [eq]
    refine ⟨?_, (List.append_nil _).symm⟩
    unfold Classifier.entered
    rw [calling]
    simp
  | control event started out pc calling found eq =>
    rw [eq]
    refine ⟨?_, (List.append_nil _).symm⟩
    unfold Classifier.entered
    rw [calling]
    simp

/-- the registrations among the steps around the classifier -/
def registrations (as : List (HashClassifierCallback.Act H H)) : List (Op H H) :=
  as.flatMap fun a => (Dispatch.Act.block a).op.toList

theorem run_inv_classifier {k : Nat} {c : Classifier H}
    {as : List (Around (HashClassifierCallback.Act H H))}
    (h : run (classifierCallback k).around init as = some c) :
    Inv k c ∧ c.entered = as.flatMap Around.received ∧
      c.ops = registrations (as.flatMap Around.others) := by
  refine run_hist (I := fun d done => Inv k d ∧ d.entered = done.flatMap Around.received ∧
      d.ops = registrations (done.flatMap Around.others))
    ⟨Inv.init k, rfl, rfl⟩ (fun d done a d' hd ha => ?_) h
  obtain ⟨hinv, hentered, hops⟩ := hd
  rw [List.flatMap_append, List.flatMap_append, List.flatMap_singleton, List.flatMap_singleton]
  cases a with
  | eventReceived event =>
    obtain ⟨hret, e⟩ := Option.ite_none_right_eq_some.mp ha
    cases Option.some.inj e
    have hcalling : d.calling = none := by
      have hp := hinv.progress
      cases hpc : d.dispatch.call.pc with
      | returned out =>
        rw [hpc] at hp
        exact hp
      | _ =>
        dsimp only [classifierCallback, returned] at hret
        rw [hpc] at hret
        cases hret
    refine ⟨hinv.eventReceived event, ?_, ?_⟩
    · show d.log.map Entry.event ++ [event] = _ ++ [event]
      rw [← hentered, Classifier.entered, hcalling]
      simp
    · show d.ops = registrations (done.flatMap Around.others ++ [])
      rw [List.append_nil]
      exact hops
  | other a =>
    obtain ⟨hentered', hops'⟩ := step_entered hinv ha
    refine ⟨hinv.step ha, ?_, ?_⟩
    · rw [hentered', hentered]
      exact (List.append_nil _).symm
    · rw [hops', hops]
      simp [registrations, Around.others]

/-! ## at the end of the pipeline -/

theorem deliveryAt_known {k : Nat} {ops : List (Op H H)} {event : BA.BAEvent} {ty : BAEventType}
    (ht : event.type = some ty) (i j : Nat) :
    deliveryAt k ops event i j ≠ .nullPointerException ∧
      ∀ p ∈ placesOf (deliveryAt k ops event i j), Corresponds ty p := by
  unfold deliveryAt
  cases hd : dataBlock (after k (ops.take i)).dataHandlerMap event with
  | some handler =>
    have hty := dataBlock_type hd
    rw [ht] at hty
    cases hty
    refine ⟨nofun, fun p hp => ?_⟩
    cases List.mem_singleton.mp hp
    exact .publishedData handler
  | none =>
    show controlBlock k _ event ≠ _ ∧ ∀ p ∈ placesOf (controlBlock k _ event), _
    cases hs : (after k (ops.take j)).controlEventHandlerLPM.searchPrefix k event.id with
    | none =>
      rw [controlBlock_none hs]
      exact ⟨nofun, nofun⟩
    | some handler =>
      rw [controlBlock_known hs ht]
      refine ⟨nofun, fun p hp => ?_⟩
      cases List.mem_singleton.mp hp
      exact corresponds_methodOf ty handler

/-- the call for a message: the handler was found within the call, and it is called by the method
of the message's type -/
structure Delivered (k : Nat) (ops : List (Op H H)) (x : Entry H) (m : Sent) : Prop where
  tidings : Tidings x.event m
  explained : x.Explained k ops
  returns : x.out ≠ .nullPointerException
  method : ∀ p ∈ placesOf x.out, Corresponds m.type p

theorem delivered_of_explained {k : Nat} {ops : List (Op H H)} {x : Entry H} {m : Sent}
    (hx : x.Explained k ops) (hm : Tidings x.event m) : Delivered k ops x m := by
  obtain ⟨i, j, _, _, _, hout⟩ := hx.instants
  have ht : x.event.toBAEvent.type = some m.type := hm.type
  obtain ⟨hne, hmethod⟩ := deliveryAt_known ht i j
  exact ⟨hm, hx, hout ▸ hne, hout ▸ hmethod⟩

/-- **What the daemon sends reaches the handlers**, in order and intact, while other threads
register and unregister.  The calls that have returned are those for the first messages, one after
the other, and the call that has not returned is the one for the next message; each one calls at
most the handler that the two tables told, the data table at one instant of the call and the control
table at the same or a later one, by the method of the message's type; and a call without a
registration during it is a sequential one. -/
theorem delivered_in_order (k : Nat) (viewsNull : Bool) (ptr : Nat → Addr) (w : EventManagement)
    (as : List (Pipeline.Act (HashClassifierCallback.Act H H))) (s : State (Classifier H))
    (h : run (Pipeline.step (classifierCallback k) viewsNull ptr)
      (Pipeline.init .onEventReceived (some w) init) as = some s)
    (hkeeps : ∀ a ∈ as, KeepsCallback a) (msgs : List Sent)
    (hsent : List.Forall₂ Delivers (as.flatMap Pipeline.Act.replies) msgs) :
    ∃ done handling rest, msgs = done ++ handling ++ rest ∧
      rest.length = (inFlight s.native).length ∧
      List.Forall₂ (Delivered k (registrations (as.flatMap Act.others))) s.callback.log done ∧
      List.Forall₂ Tidings (s.callback.calling.map Prod.fst).toList handling ∧
      s.callback.log.Pairwise (fun x y => x.finished ≤ y.started) ∧
      ∀ x ∈ s.callback.log, x.started = x.finished →
        x.out = HashClassifierCallback.eventReceived k
          (after k ((registrations (as.flatMap Act.others)).take x.started))
          x.event.toBAEvent := by
  obtain ⟨done, rest, hmsgs, hrest, hintact⟩ := passed_sent h hsent
  have hcarries := (run_ready hkeeps h).carries hintact
  obtain ⟨cs, hcs, hrecv, hothers⟩ := run_around h
  obtain ⟨hinv, hentered, hops⟩ := run_inv_classifier hcs
  rw [hothers] at hops
  rw [← hrecv, ← hentered] at hcarries
  obtain ⟨finished, handling, hdone, hlog, hhandling⟩ := Matching.split hcarries
  refine ⟨finished, handling, rest, hdone ▸ hmsgs, hrest, ?_, hhandling, hinv.ordered, ?_⟩
  · rw [List.forall₂_map_left_iff] at hlog
    have hall := (List.forall₂_and_left _ _).mpr ⟨hinv.explained, hlog⟩
    rw [hops] at hall
    exact hall.imp fun x m hxm => delivered_of_explained hxm.1 hxm.2
  · intro x hx hsame
    rw [← hops]
    exact (hinv.explained x hx).sequential hsame

/-- A control handler for the identifier of the first message is replaced by another one between the
two blocks of its call; the call for the second message has looked at the data table only. -/
def replacedMeanwhile : List (Pipeline.Act (HashClassifierCallback.Act Nat Nat)) :=
  [.callback (.other (.registerControlEventHandler [1, 2, 3, 4, 5, 6, 7, 8] 7))] ++
    firstCall.map .native ++
    [.callback .dataBlock,
      .callback (.other (.registerControlEventHandler [1, 2, 3, 4, 5, 6, 7, 8] 9)),
      .callback .controlBlock] ++
    secondCall.map .native

theorem delivered_in_order_replaced :
    ∃ s, run (Pipeline.step (classifierCallback 8) true fun n => 64 * (n + 1))
        (Pipeline.init .onEventReceived (some .baWrapperNB) init) replacedMeanwhile = some s ∧
      s.callback.log.map Entry.out = [.control 9 .stopPublish] ∧
      List.Forall₂ (Delivered 8 (registrations (replacedMeanwhile.flatMap Act.others)))
        s.callback.log [stopSent] ∧
      List.Forall₂ Tidings (s.callback.calling.map Prod.fst).toList [newDataSent] := by
  obtain ⟨s, hrun, hout, hflight⟩ : ∃ s,
      run (Pipeline.step (classifierCallback 8) true fun n => 64 * (n + 1))
        (Pipeline.init .onEventReceived (some .baWrapperNB) init) replacedMeanwhile = some s ∧
      s.callback.log.map Entry.out = [.control 9 .stopPublish] ∧
      (inFlight s.native).length = 1 := ⟨_, rfl, rfl, rfl⟩
  have hkeeps : ∀ a ∈ replacedMeanwhile, KeepsCallback a := by
    simp [replacedMeanwhile, firstCall, secondCall, hand, KeepsCallback]
  obtain ⟨done, handling, rest, hmsgs, hrest, hall, hopen, _⟩ := delivered_in_order 8 true
    (fun n => 64 * (n + 1)) .baWrapperNB replacedMeanwhile s hrun hkeeps threeSent
    threeSent_delivered
  rw [hflight] at hrest
  obtain ⟨m, rfl⟩ := List.length_eq_one_iff.mp hrest
  obtain ⟨x, hx, _⟩ := List.map_eq_singleton_iff.mp hout
  obtain ⟨m', rfl⟩ := List.length_eq_one_iff.mp (hall.length_eq.symm.trans (by rw [hx]; rfl))
  obtain ⟨hboth, _⟩ := List.append_inj' (show [stopSent, newDataSent] ++ [stopSent] =
    [m'] ++ handling ++ [m] from hmsgs) rfl
  obtain ⟨hfirst, rfl⟩ := List.cons.inj hboth
  exact ⟨s, hrun, hout, hfirst ▸ hall, hopen⟩

end HandlerDelivery
end Wrapper
end BA
