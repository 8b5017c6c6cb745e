import BlackadderJNI.Callback.LongestMatch
import BlackadderJNI.Wrapper.Receive

/-!
# What the callbacks do with an event

Translation of `callback/DiscardCallback.java` and `callback/BlockingQueueCallback.java`; the
classifying callback is that of `Callback/HashClassifier.lean`.

* `Receipt`, `Settled`   an event is placed with the application once, or released, and not both;
* `ControlBound`         some prefix is registered for an identifier, seen at hash paths, and no
                         other registered prefix hides it;
* `settled_iff`          when each of the three callbacks settles an event.
-/

namespace BA
namespace Wrapper
open Prefix Replay HashClassifierCallback

/-- where an event can be placed -/
inductive Place (D C : Type) where
  | queue
  | data (handler : D)
  | control (handler : C) (method : ControlMethod)

/-- what a callback has done with an event when `eventReceived` returns or throws -/
structure Receipt (D C : Type) where
  placed : List (Place D C)
  /-- the call of `deleteEvent` by the callback itself -/
  released : Option Mapping

/-- handed over once and not released, or released and not handed over -/
def Settled {D C : Type} (r : Receipt D C) : Prop :=
  (r.placed.length = 1 ∧ r.released = none) ∨ (r.placed = [] ∧ r.released ≠ none)

variable {D C : Type}

/-! ## the callbacks -/

def DiscardCallback.eventReceived (event : BAEvent) : Receipt D C :=
  ⟨[], event.freeNativeBuffer.2⟩

/-- an `ArrayBlockingQueue` -/
structure BlockingQueueCallback where
  queueSize : Nat
  queueSize_pos : 0 < queueSize
  eventQueue : List BAEvent
  length_le : eventQueue.length ≤ queueSize

namespace BlockingQueueCallback

def offer (q : BlockingQueueCallback) (event : BAEvent) : BlockingQueueCallback × Bool :=
  if h : q.eventQueue.length < q.queueSize then
    ({ q with
      eventQueue := q.eventQueue ++ [event]
      length_le := by rw [List.length_append]; exact h }, true)
  else (q, false)

/-- the result of `offer` is not looked at -/
def eventReceived (q : BlockingQueueCallback) (event : BAEvent) :
    BlockingQueueCallback × Receipt D C :=
  ((q.offer event).1, ⟨if (q.offer event).2 then [.queue] else [], none⟩)

end BlockingQueueCallback

/-- the methods that a delivery calls -/
def placesOf : Delivery D C → List (Place D C)
  | .publishedData handler => [.data handler]
  | .control handler method => [.control handler method]
  | .noHandler => []
  | .nullPointerException => []

def classified (scopeIdLen : Nat) (s : HashClassifierCallback D C) (event : BAEvent) :
    Receipt D C :=
  ⟨placesOf (eventReceived scopeIdLen s event.toBAEvent), none⟩

/-! ## when a control handler is found -/

/-- the path of `id` has a bound prefix, and no bound path leaves it below its longest one -/
def ControlBound (k : Nat) (ops : List (Op D C)) (id : Bytes) : Prop :=
  (∃ q, LPMTree.hashBindings k (controlOps ops) q ≠ none ∧ q <+: LPMTree.hashPath k id) ∧
    Covered (fun _ => True) (LPMTree.hashBindings k (controlOps ops)) (LPMTree.hashPath k id)

/-- the last registration under the hash of `id` was not followed by an unregistration -/
def DataBound (ops : List (Op D C)) (id : Bytes) : Prop :=
  lastWrite Prod.snd (fun w => arraysHashCode w.1 = arraysHashCode id) (dataWrites ops) ≠ none

theorem searchPrefix_ne_none (k : Nat) (ops : List (Op D C)) (id : Bytes) :
    (after k ops).controlEventHandlerLPM.searchPrefix k id ≠ none ↔ ControlBound k ops id := by
  rw [after_control]
  have hhash := LPMTree.searchPrefix_hash k (controlOps ops) id
  constructor
  · intro hne
    have hc : Covered (fun _ => True) (LPMTree.hashBindings k (controlOps ops))
        (LPMTree.hashPath k id) := by
      by_contra hc
      exact hne (LPMTree.searchPrefix_uncovered hc)
    refine ⟨?_, hc⟩
    have hlong := hhash.mpr hc
    obtain ⟨v, hv⟩ := Option.ne_none_iff_exists'.mp hne
    rw [hv] at hlong
    obtain ⟨key, hkey, hpre, _⟩ := hlong
    exact ⟨key, by rw [hkey]; exact Option.some_ne_none v, hpre⟩
  · rintro ⟨⟨q, hq, hpre⟩, hc⟩ hnone
    have hlong := hhash.mpr hc
    rw [hnone] at hlong
    exact hq (hlong q hpre)

theorem dataBlock_ne_none (k : Nat) (ops : List (Op D C)) (event : BA.BAEvent) :
    dataBlock (after k ops).dataHandlerMap event ≠ none ↔
      event.type = some .publishedData ∧ DataBound ops event.id := by
  unfold dataBlock DataBound
  by_cases ht : event.type = some .publishedData
  · rw [if_pos ht, after_data, replay_eq_lastWrite]
    exact ⟨fun h => ⟨ht, h⟩, fun h => h.2⟩
  · rw [if_neg ht]
    exact ⟨fun h => absurd rfl h, fun h => absurd h.1 ht⟩

/-- a method is called if the data block finds a handler, or the control block finds one for an
event of a known type -/
theorem placesOf_eventReceived (k : Nat) (s : HashClassifierCallback D C) (event : BA.BAEvent) :
    (placesOf (eventReceived k s event)).length = 1 ↔
      dataBlock s.dataHandlerMap event ≠ none ∨
      (event.type ≠ none ∧ s.controlEventHandlerLPM.searchPrefix k event.id ≠ none) := by
  unfold eventReceived
  cases hd : dataBlock s.dataHandlerMap event with
  | some handler => exact ⟨fun _ => Or.inl (Option.some_ne_none handler), fun _ => rfl⟩
  | none =>
    show (placesOf (controlBlock k s.controlEventHandlerLPM event : Delivery D C)).length = 1 ↔ _
    unfold controlBlock
    cases hs : s.controlEventHandlerLPM.searchPrefix k event.id with
    | none => simp [placesOf]
    | some handler =>
      cases ht : event.type with
      | none => simp [placesOf]
      | some ty => simp [placesOf]

theorem settled_placed (placed : List (Place D C)) :
    Settled ⟨placed, none⟩ ↔ placed.length = 1 :=
  ⟨fun h => h.elim And.left fun hr => absurd rfl hr.2, fun h => Or.inl ⟨h, rfl⟩⟩

theorem settled_classified (k : Nat) (ops : List (Op D C)) (event : BAEvent) :
    Settled (classified k (after k ops) event) ↔
      (event.type = some .publishedData ∧ DataBound ops event.id) ∨
      (event.type ≠ none ∧ ControlBound k ops event.id) := by
  rw [← dataBlock_ne_none k, ← searchPrefix_ne_none, ← placesOf_eventReceived]
  exact settled_placed _

theorem settled_queue (q : BlockingQueueCallback) (event : BAEvent) :
    Settled (q.eventReceived event : _ × Receipt D C).2 ↔ q.eventQueue.length < q.queueSize := by
  unfold BlockingQueueCallback.eventReceived
  rw [settled_placed]
  by_cases h : q.eventQueue.length < q.queueSize
  · have hoffer : (q.offer event).2 = true := by
      unfold BlockingQueueCallback.offer
      rw [dif_pos h]
    simp [hoffer, h]
  · have hoffer : (q.offer event).2 = false := by
      unfold BlockingQueueCallback.offer
      rw [dif_neg h]
    simp [hoffer, h]

theorem settled_discard {event : BAEvent} {eventPtr : Addr} (hfresh : Fresh event eventPtr) :
    Settled (DiscardCallback.eventReceived event : Receipt D C) := by
  obtain ⟨w, hw⟩ := hfresh.mapped
  refine Or.inr ⟨rfl, ?_⟩
  unfold DiscardCallback.eventReceived BAEvent.freeNativeBuffer
  rw [hfresh.live, hw]
  exact Option.some_ne_none _

/-- **When an event is handed over or released.**  The discarding callback always does; the queue
exactly when it is not full; the classifier exactly when a data handler is registered under the
hash of the identifier of published data, or a control handler under a prefix that no other one
hides, for an event of a known type. -/
theorem settled_iff (inst : Option EventManagement) (eventPtr : Addr) (type : Int8) (id : Bytes)
    (data : Option ByteBuffer) (event : BAEvent)
    (h : BAWrapperNB.onEventReceived inst eventPtr type id data = .ok event) :
    Settled (DiscardCallback.eventReceived event : Receipt D C) ∧
    (∀ q : BlockingQueueCallback, Settled (q.eventReceived event : _ × Receipt D C).2 ↔
      q.eventQueue.length < q.queueSize) ∧
    (∀ (k : Nat) (ops : List (Op D C)), Settled (classified k (after k ops) event) ↔
      (event.type = some .publishedData ∧ DataBound ops event.id) ∨
      (event.type ≠ none ∧ ControlBound k ops event.id)) := by
  have hfresh : Fresh event eventPtr := by
    unfold BAWrapperNB.onEventReceived at h
    exact construct_fresh h
  exact ⟨settled_discard hfresh, fun q => settled_queue q event,
    fun k ops => settled_classified k ops event⟩

/-- a scope that was published, as `onEventReceived` builds it -/
def scopeEvent : BAEvent :=
  ⟨⟨some .scopePublished, LPMTree.rootScope⟩, some (.ofBytes []), 0, some ⟨.baWrapperNB, 64⟩, false⟩

def oneSlot : BlockingQueueCallback := ⟨1, Nat.one_pos, [], Nat.zero_le 1⟩

theorem settled_iff_scope :
    Settled (DiscardCallback.eventReceived scopeEvent : Receipt Nat Nat) ∧
    Settled (oneSlot.eventReceived scopeEvent : _ × Receipt Nat Nat).2 :=
  have hall := settled_iff (D := Nat) (C := Nat) (some .baWrapperNB) 64 102 LPMTree.rootScope
    (some (.ofBytes [])) scopeEvent rfl
  ⟨hall.1, (hall.2.1 oneSlot).mpr (by decide)⟩

/-- A full queue drops the event, and so does a classifier without a handler for it. -/
theorem full_queue_drops :
    (¬ ∀ (q : BlockingQueueCallback) (eventPtr : Addr) (event : BAEvent),
      BAWrapperNB.onEventReceived (some .baWrapperNB) eventPtr 102 LPMTree.rootScope
        (some (.ofBytes [])) = .ok event →
      Settled (q.eventReceived event : _ × Receipt Nat Nat).2) ∧
    (¬ ∀ (ops : List (Op Nat Nat)) (eventPtr : Addr) (event : BAEvent),
      BAWrapperNB.onEventReceived (some .baWrapperNB) eventPtr 102 LPMTree.rootScope
        (some (.ofBytes [])) = .ok event →
      Settled (classified 8 (after 8 ops) event)) := by
  constructor
  · intro hall
    have hs := hall (oneSlot.offer scopeEvent).1 64 scopeEvent rfl
    rw [settled_queue] at hs
    exact absurd hs (by decide)
  · intro hall
    rcases hall [] 64 scopeEvent rfl with hs | hs
    · exact absurd hs.1 (by decide)
    · exact absurd rfl hs.2

end Wrapper
end BA
